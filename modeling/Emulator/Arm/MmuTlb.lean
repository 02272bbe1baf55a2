import Mathlib.Logic.Function.Basic
import Emulator.Arm.MmuPage

/-!
# What the TLB lets through

`cpu_arm_handle_mmu_fault` walks the page table for one access and fills a TLB entry for the whole
page, for reads, writes and fetches. A later access that the entry lets through does not come
to the walk any more.

* An entry is honest (`HonestAt`) if what it lets through would be allowed by the walk, and
  reaches the physical address that the walk gives.
* `handleMmuFault_honest`: the entry is honest unless the page is execute-never, or the process
  identifier of FCSE moves parts of pages. `tlb_set_page` makes every page that can be read one that
  can be executed, and the TLB has an entry for the unmodified page.
-/

namespace Emulator.Arm

open Function
open BitVec hiding and_zero or_zero

def ioMemRam : Word := 0
def ioMemRom : Word := 8
def ioMemUnassigned : Word := 16
def ioMemNotdirty : Word := 24
def ioMemRomd : Word := 1

def mmuUserIdx : ℕ := 1

def excpPrefetchAbort : ℕ := 3
def excpDataAbort : ℕ := 4

structure CPUTLBEntry where
  addrRead : Word
  addrWrite : Word
  addrCode : Word
  addend : Word

/-- `PhysPageDesc`. `cpu_register_physical_memory_offset` clears the low bits of the offset. -/
structure PhysPageDesc where
  physOffset : Word
  regionOffset : Word
  regionOffset_aligned : regionOffset &&& 0x3ff#32 = 0

/-- What lies behind the CPU: memory and its pages, and memcheck. -/
structure Machine where
  ldlPhys : Word → Word
  physPageFind : Word → Option PhysPageDesc
  /-- `qemu_get_ram_ptr`. -/
  getRamPtr : Word → Word
  isDirty : Word → Bool
  ioMemWatch : Word
  memcheckInstrumentMmu : Bool
  memcheckIsChecked : Word → Word → Bool

structure CPUState extends MmuState where
  exceptionIndex : ℕ
  tlbTable : ℕ → ℕ → CPUTLBEntry
  iotlb : ℕ → ℕ → Word
  /-- `vaddr` of each watchpoint. -/
  watchpoints : List Word

def tlbIndex (addr : Word) : ℕ := Emulator.tlbIndex 10 addr

namespace Machine

variable (machine : Machine)

/-- `pd`. -/
def pageDesc (paddr : Word) : Word :=
  match machine.physPageFind (paddr >>> 10) with
  | none => ioMemUnassigned
  | some p => p.physOffset

/-- A watchpoint is on the page. -/
def watched (watchpoints : List Word) (vaddr : Word) : Bool :=
  watchpoints.any fun wp => vaddr == wp &&& targetPageMask

/-- `iotlb` of `tlb_set_page_exec`. -/
def iotlbOf (watchpoints : List Word) (vaddr paddr : Word) : Word :=
  let pd := machine.pageDesc paddr
  if watched watchpoints vaddr then machine.ioMemWatch + paddr
  else if pd &&& ~~~ targetPageMask ≤ ioMemRom then
    pd &&& targetPageMask |||
      (if pd &&& ~~~ targetPageMask = ioMemRam then ioMemNotdirty else ioMemRom)
  else
    (pd &&& ~~~ targetPageMask) +
      match machine.physPageFind (paddr >>> 10) with
      | some p => p.regionOffset
      | none => paddr

end Machine

namespace CPUState

/-- `tlb_set_page_exec`. It returns 0. -/
def tlbSetPageExec (env : CPUState) (machine : Machine) (vaddr paddr prot : Word) (mmuIdx : ℕ) (isSoftmmu : Bool) :
    CPUState :=
  let pd := machine.pageDesc paddr
  let io := pd &&& ~~~ targetPageMask
  let codeAddress := if io > ioMemRom ∧ pd &&& ioMemRomd = 0 then vaddr ||| tlbMmio else vaddr
  let address := if Machine.watched env.watchpoints vaddr then codeAddress ||| tlbMmio else codeAddress
  let addrRead := if prot &&& pageRead ≠ 0 then address else -1
  let addrCode := if prot &&& pageExec ≠ 0 then codeAddress else -1
  let addrWrite :=
    if prot &&& pageWrite ≠ 0 then
      if io = ioMemRom ∨ pd &&& ioMemRomd ≠ 0 then address ||| tlbMmio
      else if io = ioMemRam ∧ !machine.isDirty pd then address ||| tlbNotdirty
      else address
    else -1
  -- memcheck wants to see the accesses to the page
  let turned := machine.memcheckInstrumentMmu && mmuIdx == 1 && !isSoftmmu && io == ioMemRam &&
    prot &&& (pageRead ||| pageWrite) != 0 && machine.memcheckIsChecked (vaddr &&& targetPageMask) 1024
  let te : CPUTLBEntry := {
    addrRead := if turned && prot &&& pageRead != 0 then addrRead ^^^ targetPageMask else addrRead
    addrWrite := if turned && prot &&& pageWrite != 0 then addrWrite ^^^ targetPageMask else addrWrite
    addrCode := addrCode
    addend := machine.getRamPtr (pd &&& targetPageMask) - vaddr }
  let index := tlbIndex vaddr
  { env with
    iotlb := update env.iotlb mmuIdx
      (update (env.iotlb mmuIdx) index (machine.iotlbOf env.watchpoints vaddr paddr - vaddr))
    tlbTable := update env.tlbTable mmuIdx (update (env.tlbTable mmuIdx) index te) }

/-- `tlb_set_page`. -/
def tlbSetPage (env : CPUState) (machine : Machine) (vaddr paddr prot : Word) (mmuIdx : ℕ) (isSoftmmu : Bool) :
    CPUState :=
  let prot := if prot &&& pageRead ≠ 0 then prot ||| pageExec else prot
  env.tlbSetPageExec machine vaddr paddr prot mmuIdx isSoftmmu

/-- `cpu_arm_handle_mmu_fault`: the value, and the state. -/
def handleMmuFault (env : CPUState) (machine : Machine) (address : Word) (accessType : AccessType) (mmuIdx : ℕ)
    (isSoftmmu : Bool) : ℕ × CPUState :=
  match env.getPhysAddr machine.ldlPhys address accessType (mmuIdx == mmuUserIdx) with
  | .ok (physAddr, prot) =>
    -- a single [sub]page
    (0, env.tlbSetPage machine (address &&& targetPageMask) (physAddr &&& targetPageMask) prot mmuIdx isSoftmmu)
  | .error ret =>
    match accessType with
    | .fetch =>
      (1, { env with cp15 := { env.cp15 with c5Insn := ret, c6Insn := address }, exceptionIndex := excpPrefetchAbort })
    | _ =>
      let c5Data := if accessType = .write ∧ env.features.v6 then ret ||| (1#32 <<< 11) else ret
      (1, { env with cp15 := { env.cp15 with c5Data := c5Data, c6Data := address }, exceptionIndex := excpDataAbort })

end CPUState

def CPUTLBEntry.addr (te : CPUTLBEntry) : AccessType → Word
  | .read => te.addrRead
  | .write => te.addrWrite
  | .fetch => te.addrCode

/-- The test of the memory helpers: the access does not go to the walk. -/
def CPUTLBEntry.Lets (te : CPUTLBEntry) (accessType : AccessType) (b : Word) : Prop :=
  b &&& targetPageMask = te.addr accessType &&& (targetPageMask ||| tlbInvalidMask)

/-- Where RAM has the byte of a physical address. -/
def Machine.hostAddress (machine : Machine) (physAddr : Word) : Word :=
  machine.getRamPtr (machine.pageDesc physAddr &&& targetPageMask) + (physAddr &&& 0x3ff#32)

/-- The handlers of `io_mem_read` and `io_mem_write`, and the address for them. -/
def ioAccess (iotlb addr : Word) : Word × Word :=
  ((iotlb >>> 3) &&& 127#32, (iotlb &&& targetPageMask) + addr)

namespace CPUState

/-- The access to `b` through its entry goes to the physical address: in RAM, and at a device, whose
handlers get the page and the place in it. -/
def Reaches (env : CPUState) (machine : Machine) (mmuIdx : ℕ) (b physAddr : Word) : Prop :=
  b + (env.tlbTable mmuIdx (tlbIndex b)).addend = machine.hostAddress physAddr ∧
    ioAccess (env.iotlb mmuIdx (tlbIndex b)) b =
      ioAccess (machine.iotlbOf env.watchpoints (b &&& targetPageMask) (physAddr &&& targetPageMask))
        (physAddr &&& 0x3ff#32)

/-- **An honest entry**: each access to the page of `a` that it lets through is one that the walk
allows, and it goes where the walk says. -/
def HonestAt (env : CPUState) (machine : Machine) (mmuIdx : ℕ) (a : Word) : Prop :=
  ∀ b accessType, SamePage a b → (env.tlbTable mmuIdx (tlbIndex b)).Lets accessType b →
    ∃ physAddr prot,
      env.getPhysAddr machine.ldlPhys b accessType (mmuIdx == mmuUserIdx) = .ok (physAddr, prot) ∧
        env.Reaches machine mmuIdx b physAddr

end CPUState

variable {a b : Word}

theorem moveTo_page (x b : Word) : moveTo x b &&& targetPageMask = x &&& targetPageMask := by
  apply eq_of_getLsbD_eq
  intro i hi
  simp only [moveTo, getLsbD_or, getLsbD_and, getLsbD_targetPageMask i hi, getLsbD_offsetMask i hi]
  by_cases hlow : i < 10
  · simp [hlow, Nat.not_le.2 hlow]
  · simp [hlow, Nat.not_lt.1 hlow]

theorem moveTo_offset (x b : Word) : moveTo x b &&& 0x3ff#32 = b &&& 0x3ff#32 := by
  apply eq_of_getLsbD_eq
  intro i hi
  simp only [moveTo, getLsbD_or, getLsbD_and, getLsbD_targetPageMask i hi, getLsbD_offsetMask i hi]
  by_cases hlow : i < 10
  · simp [hlow, Nat.not_le.2 hlow]
  · simp [hlow]

theorem page_add_offset (b : Word) : (b &&& targetPageMask) + (b &&& 0x3ff#32) = b := by
  rw [← toNat_inj, toNat_add, toNat_and_targetPageMask, toNat_and_offset]
  have := b.isLt
  omega

theorem add_sub_page {page offset : Word} (h : page + offset = b) {host offset' : Word} :
    b + (host - page) = host + offset' ↔ offset' = offset := by
  subst h
  constructor
  · intro h
    bv_omega
  · intro h
    bv_omega

theorem samePage_page (a : Word) : SamePage a (a &&& targetPageMask) := by
  rw [samePage_iff, toNat_and_targetPageMask]
  omega

theorem SamePage.tlbIndex (h : SamePage a b) : tlbIndex a = tlbIndex b :=
  congrArg BitVec.toNat (h.shift_and_eq 10 (m := 255#32) (by decide))

theorem SamePage.shift (h : SamePage a b) : a >>> 10 = b >>> 10 := by
  rw [← toNat_inj, toNat_ushiftRight, toNat_ushiftRight, Nat.shiftRight_eq_div_pow,
    Nat.shiftRight_eq_div_pow]
  exact samePage_iff.1 h

theorem SamePage.pageDesc (h : SamePage a b) (machine : Machine) : machine.pageDesc a = machine.pageDesc b := by
  rw [Machine.pageDesc, Machine.pageDesc, h.shift]

/-- `iotlb` is stored less the page, and the access adds it again. -/
theorem ioAccess_sub (iotlb page offset : Word) (h : page &&& 0x3ff#32 = 0) :
    ioAccess (iotlb - page) (page + offset) = ioAccess iotlb offset := by
  have hpage := congrArg BitVec.toNat h
  rw [toNat_and_offset] at hpage
  change page.toNat % 1024 = 0 at hpage
  have hp := page.isLt
  have hi := iotlb.isLt
  have hmask : ∀ x : Word, (x >>> 3 &&& 127#32).toNat = x.toNat / 8 % 128 := by
    intro x
    rw [toNat_and, toNat_ushiftRight, Nat.shiftRight_eq_div_pow]
    exact Nat.and_two_pow_sub_one_eq_mod _ 7
  rw [ioAccess, ioAccess, Prod.mk.injEq, ← toNat_inj, ← toNat_inj, hmask, hmask, toNat_add,
    toNat_add, toNat_add, toNat_and_targetPageMask, toNat_and_targetPageMask, toNat_sub]
  omega

theorem getLsbD_tagMask : ∀ i < 32, (targetPageMask ||| tlbInvalidMask).getLsbD i = decide (10 ≤ i ∨ i = 3) := by
  decide

/-- An entry that is not for the access does not match. -/
theorem not_lets_invalid {te : CPUTLBEntry} {accessType : AccessType} (h : te.addr accessType = -1) (b : Word) :
    ¬ te.Lets accessType b := by
  intro hlets
  rw [CPUTLBEntry.Lets, h] at hlets
  have hbit := congrArg (BitVec.getLsbD · 3) hlets
  simp only [getLsbD_and, getLsbD_targetPageMask 3 (by decide), getLsbD_tagMask 3 (by decide)] at hbit
  simp at hbit

/-- The flags of a tag do not matter for the test. -/
theorem tag_flags (a : Word) (flags : Word) (h : flags &&& (targetPageMask ||| tlbInvalidMask) = 0) :
    (a &&& targetPageMask ||| flags) &&& (targetPageMask ||| tlbInvalidMask) = a &&& targetPageMask := by
  apply eq_of_getLsbD_eq
  intro i hi
  have hflag := congrArg (BitVec.getLsbD · i) h
  simp only [getLsbD_or, getLsbD_and, getLsbD_targetPageMask i hi, getLsbD_tagMask i hi,
    ofNat_eq_ofNat, getLsbD_zero] at hflag ⊢
  by_cases hpage : 10 ≤ i
  · simp only [hpage, true_or, decide_true, Bool.and_true] at hflag ⊢
    rw [hflag, Bool.or_false]
  · by_cases h3 : i = 3
    · subst h3
      simpa using hflag
    · simp [hpage, h3]

namespace CPUState

variable {env : CPUState} {machine : Machine} {paddr prot : Word} {mmuIdx : ℕ} {isSoftmmu : Bool}

theorem tlbSetPageExec_entry (env : CPUState) (machine : Machine) (paddr prot : Word) (mmuIdx : ℕ) (isSoftmmu : Bool)
    (h : SamePage a b) :
    ((env.tlbSetPageExec machine (a &&& targetPageMask) paddr prot mmuIdx isSoftmmu).tlbTable mmuIdx
        (tlbIndex b)).addend =
        machine.getRamPtr (machine.pageDesc paddr &&& targetPageMask) - (a &&& targetPageMask) ∧
      (env.tlbSetPageExec machine (a &&& targetPageMask) paddr prot mmuIdx isSoftmmu).iotlb mmuIdx (tlbIndex b) =
        machine.iotlbOf env.watchpoints (a &&& targetPageMask) paddr - (a &&& targetPageMask) := by
  have hindex : tlbIndex (a &&& targetPageMask) = tlbIndex b := (samePage_page a).tlbIndex.symm.trans h.tlbIndex
  simp [tlbSetPageExec, hindex]

/-- An entry for a page that cannot be written is not for writes. -/
theorem tlbSetPageExec_not_write (h : SamePage a b) (hprot : prot &&& pageWrite = 0) :
    ((env.tlbSetPageExec machine (a &&& targetPageMask) paddr prot mmuIdx isSoftmmu).tlbTable mmuIdx
        (tlbIndex b)).addr .write = -1 := by
  have hindex : tlbIndex (a &&& targetPageMask) = tlbIndex b := (samePage_page a).tlbIndex.symm.trans h.tlbIndex
  simp [tlbSetPageExec, hindex, CPUTLBEntry.addr, hprot]

/-- An entry for a page that can be executed lets fetches through. -/
theorem tlbSetPageExec_fetch (h : SamePage a b) (hprot : prot &&& pageExec ≠ 0) :
    ((env.tlbSetPageExec machine (a &&& targetPageMask) paddr prot mmuIdx isSoftmmu).tlbTable mmuIdx
        (tlbIndex b)).Lets .fetch b := by
  have hindex : tlbIndex (a &&& targetPageMask) = tlbIndex b := (samePage_page a).tlbIndex.symm.trans h.tlbIndex
  have hplain := tag_flags a 0 (by decide)
  have hmmio := tag_flags a tlbMmio (by decide)
  rw [show a &&& targetPageMask ||| 0 = a &&& targetPageMask from BitVec.or_zero] at hplain
  rw [CPUTLBEntry.Lets, ← h]
  simp only [tlbSetPageExec, hindex, CPUTLBEntry.addr, update_self, if_pos hprot]
  split_ifs
  · exact hmmio.symm
  · exact hplain.symm

/-- `tlb_set_page` for what a walk gives. -/
theorem tlbSetPage_eq (hprot : prot = pageRead ∨ prot = pageRead ||| pageWrite) (vaddr : Word) :
    env.tlbSetPage machine vaddr paddr prot mmuIdx isSoftmmu =
      env.tlbSetPageExec machine vaddr paddr (prot ||| pageExec) mmuIdx isSoftmmu := by
  have hread : prot &&& pageRead ≠ 0 := by rcases hprot with rfl | rfl <;> decide
  rw [tlbSetPage, if_pos hread]

/-- Where an access through the entry goes: to the place of `b` in the page of `x`. -/
theorem reaches_tlbSetPageExec (h : SamePage a b) {x y : Word} (hpage : SamePage x y) :
    (env.tlbSetPageExec machine (a &&& targetPageMask) (x &&& targetPageMask) prot mmuIdx isSoftmmu).Reaches machine
        mmuIdx b y ↔ y &&& 0x3ff#32 = b &&& 0x3ff#32 := by
  have hentry := tlbSetPageExec_entry env machine (x &&& targetPageMask) prot mmuIdx isSoftmmu h
  have hdesc : machine.pageDesc (x &&& targetPageMask) = machine.pageDesc y :=
    (samePage_page x).pageDesc machine |>.symm.trans (hpage.pageDesc machine)
  have hlow : b &&& targetPageMask &&& 0x3ff#32 = 0 := by
    rw [BitVec.and_assoc, show targetPageMask &&& 0x3ff#32 = 0#32 by decide, BitVec.and_zero]
    rfl
  have hwatch : (env.tlbSetPageExec machine (a &&& targetPageMask) (x &&& targetPageMask) prot mmuIdx
      isSoftmmu).watchpoints = env.watchpoints := rfl
  have hio := ioAccess_sub (machine.iotlbOf env.watchpoints (b &&& targetPageMask) (x &&& targetPageMask)) _
    (b &&& 0x3ff#32) hlow
  rw [page_add_offset] at hio
  rw [Reaches, hentry.1, hentry.2, hdesc, hwatch, Machine.hostAddress, show a &&& targetPageMask = _ from h,
    ← show x &&& targetPageMask = _ from hpage, add_sub_page (page_add_offset b), hio, and_iff_left_iff_imp]
  intro hoffset
  rw [hoffset]

/-- What the walk allows is reading, or reading and writing. -/
theorem getPhysAddr_prot {accessType : AccessType} {isUser : Bool} {ldl : Word → Word} {x : Word}
    (hmmu : env.cp15.c1Sys &&& 1#32 ≠ 0) (hmpu : env.features.mpu = false)
    (h : env.getPhysAddr ldl a accessType isUser = .ok (x, prot)) :
    prot = pageRead ∨ prot = pageRead ||| pageWrite := by
  obtain ⟨mapping, -, -, -, -, hprot, hcheck⟩ := (MmuState.getPhysAddr_eq_ok hmmu hmpu).1 h
  rw [MmuState.checkAp_eq] at hcheck
  rcases MmuState.checkAp_cases env.toMmuState mapping.ap mapping.domain isUser with hread | hread | hread
  · rw [hread] at hcheck
    simp [pageRead] at hcheck
    exact absurd hcheck.symm hprot
  · rw [hread] at hcheck
    split_ifs at hcheck
    · exact absurd hcheck.symm hprot
    · exact .inl hcheck.symm
  · rw [hread, if_neg (fun h => absurd h.2 (by decide))] at hcheck
    exact .inr hcheck.symm

/-- **A TLB hit allows what a walk would allow**, and goes where it would go, exactly if the page is not
execute-never and the process identifier of FCSE, where it is added, is one of whole pages. -/
theorem handleMmuFault_honest {accessType : AccessType} (hmmu : env.cp15.c1Sys &&& 1#32 ≠ 0)
    (hmpu : env.features.mpu = false) (hfill : (env.handleMmuFault machine a accessType mmuIdx isSoftmmu).1 = 0) :
    (env.handleMmuFault machine a accessType mmuIdx isSoftmmu).2.HonestAt machine mmuIdx a ↔
      env.FcseAligned a ∧ env.executeNever machine.ldlPhys a = false := by
  unfold handleMmuFault at hfill ⊢
  cases hwalk : env.getPhysAddr machine.ldlPhys a accessType (mmuIdx == mmuUserIdx) with
  | error ret =>
    rw [hwalk] at hfill
    cases accessType <;> simp at hfill
  | ok res =>
    obtain ⟨x, prot⟩ := res
    have hprot := getPhysAddr_prot hmmu hmpu hwalk
    have hexec : (prot ||| pageExec) &&& pageExec ≠ 0 := by rcases hprot with rfl | rfl <;> decide
    dsimp only
    rw [tlbSetPage_eq hprot]
    constructor
    · intro hhonest
      -- a fetch of `a` itself is let through
      obtain ⟨x', prot', hfetch, hreach⟩ := hhonest a .fetch rfl (tlbSetPageExec_fetch rfl hexec)
      refine ⟨?_, ?_⟩
      · by_contra hfcse
        obtain ⟨mapping, hmapping, rfl, -⟩ := (MmuState.getPhysAddr_eq_ok hmmu hmpu).1 hwalk
        obtain ⟨mapping', hmapping', rfl, -⟩ := (MmuState.getPhysAddr_eq_ok hmmu hmpu).1 hfetch
        have hsame : mapping' = mapping := by
          injection hmapping'.symm.trans hmapping
        subst hsame
        rw [reaches_tlbSetPageExec rfl rfl, MmuState.walk_offset hmapping, moveTo_offset] at hreach
        exact MmuState.modifiedAddress_offset_ne hfcse hreach
      · cases hxn : env.executeNever machine.ldlPhys a with
        | false => rfl
        | true => exact absurd hfetch (MmuState.getPhysAddr_executeNever hmmu hmpu hxn x' prot')
    · rintro ⟨hfcse, hxn⟩ b later hpage hlets
      have hwrite : later = .write → prot &&& pageWrite ≠ 0 := by
        rintro rfl hzero
        refine not_lets_invalid (tlbSetPageExec_not_write hpage ?_) b hlets
        rcases hprot with rfl | rfl
        · decide
        · exact absurd hzero (by decide)
      obtain ⟨prot', hlater⟩ := MmuState.getPhysAddr_samePage hmmu hmpu hfcse hpage hwalk later (fun _ => hxn) hwrite
      refine ⟨_, prot', hlater, (reaches_tlbSetPageExec hpage (moveTo_page x b).symm).2 (moveTo_offset x b)⟩

/-- A v6 table of sections that all may read and write, with further bits of the descriptor. -/
def sectionMachine (bits : Word) : Machine where
  ldlPhys _ := 0xc02#32 ||| bits
  physPageFind _ := some { physOffset := 0, regionOffset := 0, regionOffset_aligned := by decide }
  getRamPtr offset := offset
  isDirty _ := true
  ioMemWatch := 0
  memcheckInstrumentMmu := false
  memcheckIsChecked _ _ := false

def sectionState : CPUState where
  cp15 := {
    c1Sys := 0x800001#32
    c2Base0 := 0x4000#32
    c2Base1 := 0
    c2Mask := 0
    c2BaseMask := 0xffffc000#32
    c3 := 1
    c5Insn := 0
    c5Data := 0
    c6Region := fun _ => 0
    c6Insn := 0
    c6Data := 0
    c13Fcse := 0
    c2Mask_high := by decide }
  features := { v6 := true, v7 := false, xscale := false, mpu := false }
  exceptionIndex := 0
  tlbTable _ _ := { addrRead := -1, addrWrite := -1, addrCode := -1, addend := 0 }
  iotlb _ _ := 0
  watchpoints := []

theorem handleMmuFault_honest_section :
    (sectionState.handleMmuFault (sectionMachine 0) 0x8000#32 .read 0 false).2.HonestAt (sectionMachine 0) 0
      0x8000#32 :=
  (handleMmuFault_honest (by decide) rfl rfl).2 ⟨fun _ => by decide, rfl⟩

/-- A read fills the entry of an execute-never section, and a fetch is let through. -/
theorem handleMmuFault_executeNever :
    (sectionState.handleMmuFault (sectionMachine 0x10#32) 0x8000#32 .read 0 false).1 = 0 ∧
      ((sectionState.handleMmuFault (sectionMachine 0x10#32) 0x8000#32 .read 0 false).2.tlbTable 0
        (tlbIndex 0x8000#32)).Lets .fetch 0x8000#32 ∧
      sectionState.getPhysAddr (sectionMachine 0x10#32).ldlPhys 0x8000#32 .fetch false = .error 0x1d#32 ∧
      ¬ (sectionState.handleMmuFault (sectionMachine 0x10#32) 0x8000#32 .read 0 false).2.HonestAt
        (sectionMachine 0x10#32) 0 0x8000#32 := by
  have hlets : ((sectionState.handleMmuFault (sectionMachine 0x10#32) 0x8000#32 .read 0 false).2.tlbTable 0
      (tlbIndex 0x8000#32)).Lets .fetch 0x8000#32 := rfl
  refine ⟨rfl, hlets, rfl, fun hhonest => ?_⟩
  obtain ⟨x, prot, hfetch, -⟩ := hhonest _ _ rfl hlets
  exact MmuState.getPhysAddr_executeNever (by decide) rfl rfl x prot hfetch

end CPUState

end Emulator.Arm
