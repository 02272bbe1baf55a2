import Mathlib.Data.Int.Notation
import Emulator.Lib.Tlb
import Emulator.Memcheck.MallocMap

/-!
# The user-mode TLB under memcheck

The user-mode half of the software TLB with `memcheck_instrument_mmu` on: the memory helpers
of `softmmu_template.h`, `tlb_set_page_exec` of `exec.c` and the parts of `memcheck.c` that
decide which pages are watched. An entry keeps the page it is about in two tags, one for
reading and one for writing. A page is watched by turning the page bits of its tags over, so
that they do not match and the next access comes to a helper again.

A helper that raises a guest exception in `tlb_fill` does not return: `Except.error` has the
TLB that it leaves. The contents of memory, the `addend` of an entry and the tag for code are
left out, and so is `av_count`, which nothing reads.
-/

namespace Emulator.Memcheck

def targetPageBits : ℕ := 10

def targetPageSize : ℕ := 1024

def targetPageMask : TargetUlong := ~~~ 1023

def pageOf (addr : TargetUlong) : TargetUlong := addr &&& targetPageMask

def tlbIndex (addr : TargetUlong) : ℕ := Emulator.tlbIndex targetPageBits addr

/-- The test of the helpers. -/
def TlbMatches (addr tlbAddr : TargetUlong) : Prop := pageOf addr = tlbAddr &&& (targetPageMask ||| tlbInvalidMask)

instance (addr tlbAddr : TargetUlong) : Decidable (TlbMatches addr tlbAddr) := inferInstanceAs (Decidable (_ = _))

/-- The flags of a tag: an access to a page with flags is one to a device. -/
def tlbFlags (tlbAddr : TargetUlong) : TargetUlong := tlbAddr &&& ~~~ targetPageMask

structure CPUTLBEntry where
  addrRead : TargetUlong
  addrWrite : TargetUlong

def CPUTLBEntry.tag (te : CPUTLBEntry) (isWrite : Bool) : TargetUlong := if isWrite then te.addrWrite else te.addrRead

/-- `addr_read ^= TARGET_PAGE_MASK; addr_write ^= TARGET_PAGE_MASK`. -/
def CPUTLBEntry.turn (te : CPUTLBEntry) : CPUTLBEntry :=
  ⟨te.addrRead ^^^ targetPageMask, te.addrWrite ^^^ targetPageMask⟩

/-- `tlb_table[1]`, with what lies behind it, and the blocks of the current process. -/
structure UserMmu where
  tlbTable : ℕ → CPUTLBEntry
  allocMap : AllocMap

/-- The TLB is empty, and the process has no blocks. -/
def userMmuInit : UserMmu := ⟨fun _ => ⟨-1, -1⟩, .leaf⟩

def UserMmu.setEntry (mmu : UserMmu) (index : ℕ) (te : CPUTLBEntry) : UserMmu :=
  { mmu with tlbTable := Function.update mmu.tlbTable index te }

def UserMmu.turn (mmu : UserMmu) (index : ℕ) : UserMmu := mmu.setEntry index (mmu.tlbTable index).turn

/-- `procdesc_contains_allocs`: the pages of the buffer have blocks in them. -/
def procdescContainsAllocs (map : AllocMap) (addr : TargetUlong) (bufSize : ℕ) : Bool :=
  let endPage := pageOf (addr + .ofNat 32 bufSize - 1)
  let addr := pageOf addr
  let bufSize := endPage - addr + .ofNat 32 targetPageSize + 1
  (allocmapFind map addr.toNat bufSize.toNat).isSome

def memcheckCommonAccessValidation (map : AllocMap) (addr : TargetUlong) (dataSize : ℕ) : ℤ :=
  match allocmapFind map addr.toNat dataSize with
  | none => 1
  | some desc =>
    if addr.toNat < mallocdescGetUserPtr desc.mallocDesc then -1
    else
      let validatingRangeEnd := addr + .ofNat 32 dataSize
      let userRangeEnd := BitVec.ofNat 32 (mallocdescGetUserAllocEnd desc.mallocDesc)
      if validatingRangeEnd ≤ userRangeEnd then 0
      else if (validatingRangeEnd - userRangeEnd).toNat < dataSize then 0
      else -1

/-- `memcheck_validate_ld` and `memcheck_validate_st`: the entry of the page has to be turned. -/
def memcheckValidate (map : AllocMap) (addr : TargetUlong) (dataSize : ℕ) : Bool :=
  let res := memcheckCommonAccessValidation map addr dataSize
  if res = -1 then true else if res ≠ 0 then procdescContainsAllocs map addr dataSize else false

def memcheckIsChecked (map : AllocMap) (addr : TargetUlong) (size : ℕ) : Bool := procdescContainsAllocs map addr size

/-- What a physical page is: RAM that is dirty or not, ROM, ROM with a device for writing, or a device. -/
inductive PageKind where
  | ram (dirty : Bool)
  | rom
  | romd
  | io
deriving DecidableEq

def PageKind.isRam : PageKind → Bool
  | ram _ => true
  | _ => false

/-- The protection of a page, its kind, and if a watchpoint is on it. -/
structure PageInfo where
  read : Bool
  write : Bool
  kind : PageKind
  watched : Bool

def PageInfo.address (info : PageInfo) (vaddr : TargetUlong) : TargetUlong :=
  let address := if info.kind = .io then vaddr ||| tlbMmio else vaddr
  if info.watched then address ||| tlbMmio else address

def PageInfo.addrRead (info : PageInfo) (vaddr : TargetUlong) : TargetUlong :=
  if info.read then info.address vaddr else -1

def PageInfo.addrWrite (info : PageInfo) (vaddr : TargetUlong) : TargetUlong :=
  if info.write then
    match info.kind with
    | .rom | .romd => info.address vaddr ||| tlbMmio
    | .ram false => info.address vaddr ||| tlbNotdirty
    | _ => info.address vaddr
  else -1

def tlbSetPageExec (mmu : UserMmu) (vaddr : TargetUlong) (info : PageInfo) (isSoftmmu : Bool) : UserMmu :=
  let te : CPUTLBEntry := ⟨info.addrRead vaddr, info.addrWrite vaddr⟩
  let checked := !isSoftmmu && info.kind.isRam && (info.read || info.write) &&
    memcheckIsChecked mmu.allocMap (pageOf vaddr) targetPageSize
  mmu.setEntry (tlbIndex vaddr) (if checked then
    ⟨if info.read then te.addrRead ^^^ targetPageMask else te.addrRead,
      if info.write then te.addrWrite ^^^ targetPageMask else te.addrWrite⟩
  else te)

/-- The pages as `get_phys_addr` gives them for one kind of access: `none` is a fault, and a page that it gives can be
accessed. -/
structure PageTable (isWrite : Bool) where
  lookup : TargetUlong → Option PageInfo
  allows : ∀ page info, lookup page = some info → (if isWrite then info.write else info.read) = true

/-- The head of the helpers, from `redo` on: the entry of the address is filled if it does not match, and matches
then. -/
def tlbLookup {isWrite : Bool} (pages : PageTable isWrite) (mmu : UserMmu) (addr : TargetUlong) :
    Except UserMmu UserMmu :=
  if TlbMatches addr ((mmu.tlbTable (tlbIndex addr)).tag isWrite) then .ok mmu
  else match pages.lookup (pageOf addr) with
    | none => .error mmu
    | some info => .ok (tlbSetPageExec mmu (pageOf addr) info true)

def dataSize (shift : Fin 4) : ℕ := 2 ^ shift.val

/-- `addr & (DATA_SIZE - 1)`. -/
def Unaligned (addr : TargetUlong) (shift : Fin 4) : Prop := addr &&& .ofNat 32 (dataSize shift - 1) ≠ 0

instance (addr : TargetUlong) (shift : Fin 4) : Decidable (Unaligned addr shift) := inferInstanceAs (Decidable (_ ≠ _))

/-- `((addr & ~TARGET_PAGE_MASK) + DATA_SIZE - 1) >= TARGET_PAGE_SIZE`. -/
def CrossesPage (addr : TargetUlong) (shift : Fin 4) : Prop :=
  targetPageSize ≤ (addr &&& ~~~ targetPageMask).toNat + dataSize shift - 1

instance (addr : TargetUlong) (shift : Fin 4) : Decidable (CrossesPage addr shift) :=
  inferInstanceAs (Decidable (_ ≤ _))

/-- `slow_ld` of an aligned address looks at one entry only; of another one it loads the two around it. -/
def slowLd (pages : PageTable false) (shift : Fin 4) (mmu : UserMmu) (addr : TargetUlong) : Except UserMmu UserMmu := do
  let mmu ← tlbLookup pages mmu addr
  let flags := tlbFlags (mmu.tlbTable (tlbIndex addr)).addrRead
  if flags ≠ 0 ∧ Unaligned addr shift ∨ flags = 0 ∧ CrossesPage addr shift then
    let addr1 := addr &&& ~~~ (.ofNat 32 (dataSize shift - 1))
    let addr2 := addr1 + .ofNat 32 (dataSize shift)
    let mmu ← tlbLookup pages mmu addr1
    tlbLookup pages mmu addr2
  else .ok mmu

/-- `tlb_set_dirty`. -/
def tlbSetDirty (mmu : UserMmu) (vaddr : TargetUlong) : UserMmu :=
  let te := mmu.tlbTable (tlbIndex vaddr)
  if te.addrWrite = pageOf vaddr ||| tlbNotdirty then
    mmu.setEntry (tlbIndex vaddr) { te with addrWrite := pageOf vaddr }
  else mmu

/-- `io_write`. The handler of a page that is not dirty clears the flag, unless there is still translated code on the
page. -/
def ioWrite (dirties : TargetUlong → Bool) (mmu : UserMmu) (addr : TargetUlong) : UserMmu :=
  if tlbFlags (mmu.tlbTable (tlbIndex addr)).addrWrite = tlbNotdirty ∧ dirties addr then tlbSetDirty mmu addr else mmu

def slowStb (pages : PageTable true) (dirties : TargetUlong → Bool) (mmu : UserMmu) (addr : TargetUlong) :
    Except UserMmu UserMmu := do
  let mmu ← tlbLookup pages mmu addr
  if tlbFlags (mmu.tlbTable (tlbIndex addr)).addrWrite ≠ 0 then .ok (ioWrite dirties mmu addr) else .ok mmu

/-- The bytes from the last one down to the first one; `left` of them are left. -/
def slowStBytes (pages : PageTable true) (dirties : TargetUlong → Bool) (addr : TargetUlong) :
    (left : ℕ) → UserMmu → Except UserMmu UserMmu
  | 0, mmu => .ok mmu
  | i + 1, mmu => do
    let mmu ← slowStb pages dirties mmu (addr + .ofNat 32 i)
    slowStBytes pages dirties addr i mmu

def slowSt (pages : PageTable true) (dirties : TargetUlong → Bool) (shift : Fin 4) (mmu : UserMmu)
    (addr : TargetUlong) :
    Except UserMmu UserMmu := do
  let mmu ← tlbLookup pages mmu addr
  if tlbFlags (mmu.tlbTable (tlbIndex addr)).addrWrite ≠ 0 then
    if Unaligned addr shift then slowStBytes pages dirties addr (dataSize shift) mmu
    else .ok (ioWrite dirties mmu addr)
  else if CrossesPage addr shift then slowStBytes pages dirties addr (dataSize shift) mmu
  else .ok mmu

/-- `__ld` and `__st`, with the slow helper and the device access of their kind. -/
def accessMmu {isWrite : Bool} (pages : PageTable isWrite) (slow : UserMmu → TargetUlong → Except UserMmu UserMmu)
    (io : UserMmu → TargetUlong → UserMmu) (shift : Fin 4) (mmu : UserMmu) (addr : TargetUlong) :
    Except UserMmu UserMmu := do
  let mmu ← tlbLookup pages mmu addr
  let index := tlbIndex addr
  if tlbFlags ((mmu.tlbTable index).tag isWrite) ≠ 0 then
    if Unaligned addr shift then slow mmu addr else .ok (io mmu addr)
  else if CrossesPage addr shift then
    let invalidateCache := memcheckValidate mmu.allocMap addr (dataSize shift)
    let mmu ← slow mmu addr
    if invalidateCache then
      let mmu := mmu.turn index
      if index < cpuTlbSize then .ok (mmu.turn (index + 1)) else .ok mmu
    else .ok mmu
  else if memcheckValidate mmu.allocMap addr (dataSize shift) then .ok (mmu.turn index) else .ok mmu

def ldMmu (pages : PageTable false) (shift : Fin 4) : UserMmu → TargetUlong → Except UserMmu UserMmu :=
  accessMmu pages (slowLd pages shift) (fun mmu _ => mmu) shift

def stMmu (pages : PageTable true) (dirties : TargetUlong → Bool) (shift : Fin 4) :
    UserMmu → TargetUlong → Except UserMmu UserMmu :=
  accessMmu pages (slowSt pages dirties shift) (ioWrite dirties) shift

/-- The TLB after a helper has returned or raised an exception. -/
def finalMmu : Except UserMmu UserMmu → UserMmu
  | .ok mmu => mmu
  | .error mmu => mmu

/-- The inline part of an access: a helper is called if the tag is not the address of an aligned access. -/
def userAccess (isWrite : Bool) (helper : UserMmu → TargetUlong → Except UserMmu UserMmu) (shift : Fin 4)
    (mmu : UserMmu) (addr : TargetUlong) : UserMmu :=
  if (mmu.tlbTable (tlbIndex addr)).tag isWrite = addr &&& (targetPageMask ||| .ofNat 32 (dataSize shift - 1)) then mmu
  else finalMmu (helper mmu addr)

/-- The entry, if it is about the page of `start`, for writing and for reading. -/
def invalidateEntry (te : CPUTLBEntry) (start : TargetUlong) : CPUTLBEntry :=
  ⟨if TlbMatches start te.addrRead then te.addrRead ^^^ targetPageMask else te.addrRead,
    if TlbMatches start te.addrWrite then te.addrWrite ^^^ targetPageMask else te.addrWrite⟩

/-- The loop of `invalidate_tlb_cache`: `left` more rounds. -/
def invalidateLoop : (left index : ℕ) → (start : TargetUlong) → UserMmu → UserMmu
  | 0, _, _, mmu => mmu
  | left + 1, index, start, mmu =>
    invalidateLoop left (index + 1) (start + .ofNat 32 targetPageSize)
      (mmu.setEntry index (invalidateEntry (mmu.tlbTable index) start))

/-- There are no rounds if the index of the last page is before that of the first one. -/
def invalidateTlbCache (mmu : UserMmu) (start stop : TargetUlong) : UserMmu :=
  let index := tlbIndex start
  let last := tlbIndex (stop - 1)
  invalidateLoop (last + 1 - index) index start mmu

variable (R : Rebalance MallocDescEx)

/-- `memcheck_guest_alloc`, when the descriptor has been read. -/
def memcheckGuestAlloc (mmu : UserMmu) (desc : MallocDescEx) : UserMmu :=
  match allocmapInsert R mmu.allocMap desc true with
  | (.entryInserted, _, map) =>
    invalidateTlbCache { mmu with allocMap := map } (.ofNat 32 desc.mallocDesc.ptr)
      (.ofNat 32 (mallocdescGetAllocEnd desc.mallocDesc))
  | (_, _, map) => { mmu with allocMap := map }

/-- `memcheck_guest_free`, when the descriptor has been read. -/
def memcheckGuestFree (mmu : UserMmu) (ptr : ℕ) : UserMmu :=
  { mmu with allocMap := (allocmapPull R mmu.allocMap ptr).2 }

end Emulator.Memcheck
