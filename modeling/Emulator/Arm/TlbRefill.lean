import Mathlib.Tactic
import Emulator.Arm.MmuTlb

/-!
# The retry after a TLB fill

`__ld` and `__st` look the entry up again after `tlb_fill`, as often as it takes. A fill that
returns 0 must then have made an entry for the access that missed.

* `lets_tlbSetPage`: which accesses an entry is for, by the protection that it is filled with.
* `fill_serves_iff`: a fill serves its access in all translations except that of the MPU, where a
  write to a region that is read-only is no fault (`ReadOnlyRegion`).
* `redo_endless`: there the loop does not end.
-/

namespace Emulator.Arm

instance (te : CPUTLBEntry) (accessType : AccessType) (b : Word) : Decidable (te.Lets accessType b) :=
  inferInstanceAs (Decidable (_ = _))

namespace CPUState

/-- How the loop of a memory helper ends: with the entry of the access, after some refills, or with the exception of
a fault. -/
inductive RedoEnd
  | served (env : CPUState) (refills : ℕ)
  | raised (env : CPUState)

/-- The loop at `redo`, for `fuel` rounds. -/
def redo (machine : Machine) (addr : Word) (accessType : AccessType) (mmuIdx : ℕ) :
    (fuel refills : ℕ) → CPUState → Option RedoEnd
  | 0, _, _ => none
  | fuel + 1, refills, env =>
    if (env.tlbTable mmuIdx (tlbIndex addr)).Lets accessType addr then some (.served env refills)
    else
      -- `tlb_fill`
      let (ret, env) := env.handleMmuFault machine addr accessType mmuIdx true
      if ret ≠ 0 then some (.raised env) else redo machine addr accessType mmuIdx fuel (refills + 1) env

/-- The entry that the fill makes is one for the access, and a helper that missed goes on after one refill. -/
def FillServes (env : CPUState) (machine : Machine) (addr : Word) (accessType : AccessType) (mmuIdx : ℕ) : Prop :=
  let filled := (env.handleMmuFault machine addr accessType mmuIdx true).2
  (filled.tlbTable mmuIdx (tlbIndex addr)).Lets accessType addr ∧
    (¬ (env.tlbTable mmuIdx (tlbIndex addr)).Lets accessType addr →
      ∀ fuel, env.redo machine addr accessType mmuIdx (fuel + 2) 0 = some (.served filled 1))

end CPUState

/-- The permission of the region of the address lets this privilege read only. -/
def MmuState.ReadOnlyRegion (env : MmuState) (address : Word) (isUser : Bool) : Prop :=
  ∃ n, env.findRegion (env.modifiedAddress address) 8 regions_le = some n ∧
    let permission := ((env.cp15.c5Data >>> (n.val * 4)) &&& 0xf#32).toNat
    (permission = 2 ∧ isUser = true) ∨ permission = 5 ∨ permission = 6

variable {env : CPUState} {machine : Machine} {addr paddr prot x : Word} {accessType : AccessType} {mmuIdx : ℕ}

/-- A tag for the page of the address, with flags. -/
def IsTag (addr tag : Word) : Prop :=
  ∃ flags, flags &&& (targetPageMask ||| tlbInvalidMask) = 0 ∧ tag = addr &&& targetPageMask ||| flags

theorem isTag_page (addr : Word) : IsTag addr (addr &&& targetPageMask) :=
  ⟨0, by decide, BitVec.or_zero.symm⟩

theorem IsTag.or {tag flag : Word} (h : IsTag addr tag) (hflag : flag &&& (targetPageMask ||| tlbInvalidMask) = 0) :
    IsTag addr (tag ||| flag) := by
  obtain ⟨flags, hflags, rfl⟩ := h
  refine ⟨flags ||| flag, ?_, BitVec.or_assoc _ _ _⟩
  rw [BitVec.and_comm, BitVec.and_or_distrib_left, BitVec.and_comm _ flags, BitVec.and_comm _ flag, hflags, hflag]
  rfl

theorem IsTag.mmio {tag : Word} (h : IsTag addr tag) : IsTag addr (tag ||| tlbMmio) := h.or (by decide)

theorem IsTag.notdirty {tag : Word} (h : IsTag addr tag) : IsTag addr (tag ||| tlbNotdirty) := h.or (by decide)

theorem IsTag.ite {p : Prop} [Decidable p] {tag tag' : Word} (h : IsTag addr tag) (h' : IsTag addr tag') :
    IsTag addr (if p then tag else tag') := by
  split_ifs
  · exact h
  · exact h'

theorem IsTag.lets {te : CPUTLBEntry} (h : IsTag addr (te.addr accessType)) : te.Lets accessType addr := by
  obtain ⟨flags, hflags, htag⟩ := h
  rw [CPUTLBEntry.Lets, htag, tag_flags addr flags hflags]

/-- What `tlb_set_page` asks of the protection for an entry of the kind. -/
def AccessType.bits : AccessType → Word
  | .read => pageRead
  | .write => pageWrite
  | .fetch => pageExec

namespace CPUState

/-- The tags of an entry: one for the kind of access, or none. -/
theorem lets_tlbSetPageExec (hmem : machine.memcheckInstrumentMmu = false) (isSoftmmu : Bool) :
    ((env.tlbSetPageExec machine (addr &&& targetPageMask) paddr prot mmuIdx isSoftmmu).tlbTable mmuIdx
        (tlbIndex addr)).Lets accessType addr ↔ prot &&& accessType.bits ≠ 0 := by
  have hindex : tlbIndex (addr &&& targetPageMask) = tlbIndex addr := (samePage_page addr).tlbIndex.symm
  have hcode := isTag_page addr
  by_cases hbits : prot &&& accessType.bits = 0
  · refine iff_of_false (fun h => not_lets_invalid ?_ addr h) (not_not.2 hbits)
    cases accessType <;> simp only [AccessType.bits] at hbits <;>
      simp [tlbSetPageExec, hindex, hmem, CPUTLBEntry.addr, hbits]
  · refine iff_of_true (IsTag.lets ?_) hbits
    cases accessType <;> simp only [AccessType.bits] at hbits <;>
      simp only [tlbSetPageExec, hindex, hmem, Bool.false_and, Bool.false_eq_true, if_false, Function.update_self,
        CPUTLBEntry.addr, ne_eq, hbits, not_false_eq_true, if_true]
    · exact .ite (IsTag.ite hcode.mmio hcode).mmio (.ite hcode.mmio hcode)
    · refine .ite (IsTag.mmio ?_) (.ite (IsTag.notdirty ?_) ?_)
      all_goals exact .ite (IsTag.ite hcode.mmio hcode).mmio (.ite hcode.mmio hcode)
    · exact .ite hcode.mmio hcode

/-- The entry of a page that can be read is for every access, unless it is for a write to a page that cannot be
written. -/
theorem lets_tlbSetPage (hmem : machine.memcheckInstrumentMmu = false) (isSoftmmu : Bool)
    (hprot : prot = pageRead ∨ prot = pageRead ||| pageWrite) :
    ((env.tlbSetPage machine (addr &&& targetPageMask) paddr prot mmuIdx isSoftmmu).tlbTable mmuIdx
        (tlbIndex addr)).Lets accessType addr ↔ (accessType = .write → prot = pageRead ||| pageWrite) := by
  rw [tlbSetPage_eq hprot, lets_tlbSetPageExec hmem]
  rcases hprot with rfl | rfl <;> cases accessType <;> decide

end CPUState

namespace MmuState

variable {ldl : Word → Word} {isUser : Bool} {env : MmuState}

/-- A region that lets a write through lets the write happen, unless it is read-only. -/
theorem getPhysAddrMpu_prot (h : env.getPhysAddrMpu (env.modifiedAddress addr) accessType isUser = .ok (x, prot)) :
    (prot = pageRead ∨ prot = pageRead ||| pageWrite) ∧
      (accessType = .write → (prot = pageRead ||| pageWrite ↔ ¬ env.ReadOnlyRegion addr isUser)) := by
  unfold getPhysAddrMpu at h
  cases hfind : env.findRegion (env.modifiedAddress addr) 8 regions_le with
  | none =>
    rw [hfind] at h
    cases h
  | some n =>
    rw [hfind] at h
    have hregion : env.ReadOnlyRegion addr isUser ↔
        let permission := ((env.cp15.c5Data >>> (n.val * 4)) &&& 0xf#32).toNat
        (permission = 2 ∧ isUser = true) ∨ permission = 5 ∨ permission = 6 := by
      simp only [ReadOnlyRegion, hfind, Option.some.injEq, exists_eq_left']
    rw [hregion]
    refine ⟨?_, fun hwrite => ?_⟩
    · dsimp only at h
      split at h <;> cases isUser <;> cases h <;> simp
    · subst hwrite
      simp only [reduceCtorEq, if_false] at h ⊢
      split at h <;> cases isUser <;> cases h <;> simp_all [pageRead, pageWrite]

end MmuState

namespace CPUState

/-- A write that the MPU lets through although the region is read-only. -/
def MpuReadOnlyWrite (env : CPUState) (addr : Word) (accessType : AccessType) (isUser : Bool) : Prop :=
  accessType = .write ∧ env.cp15.c1Sys &&& 1#32 ≠ 0 ∧ env.features.mpu = true ∧ env.ReadOnlyRegion addr isUser

variable {ldl : Word → Word} {isUser : Bool}

/-- **What an allowed access has in the protection**: a write is one to a page that can be written, except in the
MPU. -/
theorem getPhysAddr_write (h : env.getPhysAddr ldl addr accessType isUser = .ok (x, prot)) :
    (prot = pageRead ∨ prot = pageRead ||| pageWrite) ∧
      ((accessType = .write → prot = pageRead ||| pageWrite) ↔ ¬ env.MpuReadOnlyWrite addr accessType isUser) := by
  by_cases hmmu : env.cp15.c1Sys &&& 1#32 = 0
  · rw [MmuState.getPhysAddr, if_pos hmmu] at h
    cases h
    exact ⟨.inr rfl, iff_of_true (fun _ => rfl) (fun hmpu => hmpu.2.1 hmmu)⟩
  · by_cases hmpu : env.features.mpu = true
    · rw [MmuState.getPhysAddr, if_neg hmmu, if_pos hmpu] at h
      obtain ⟨hprot, hwrite⟩ := MmuState.getPhysAddrMpu_prot h
      refine ⟨hprot, ?_⟩
      unfold MpuReadOnlyWrite
      constructor
      · rintro hneeds ⟨haccess, -, -, hregion⟩
        exact (hwrite haccess).1 (hneeds haccess) hregion
      · intro hregion haccess
        exact (hwrite haccess).2 (fun h => hregion ⟨haccess, hmmu, hmpu, h⟩)
    · have hoff : env.features.mpu = false := by simpa using hmpu
      refine ⟨getPhysAddr_prot hmmu hoff h, iff_of_true (fun haccess => ?_) (fun hregion => hmpu hregion.2.2.1)⟩
      obtain ⟨mapping, -, -, -, -, hne, hcheck⟩ := (MmuState.getPhysAddr_eq_ok hmmu hoff).1 h
      subst haccess
      rw [MmuState.checkAp_eq] at hcheck
      rcases MmuState.checkAp_cases env.toMmuState mapping.ap mapping.domain isUser with hread | hread | hread
      · rw [hread, if_neg (by decide)] at hcheck
        exact absurd hcheck.symm hne
      · rw [hread, if_pos (by decide)] at hcheck
        exact absurd hcheck.symm hne
      · rw [hread, if_neg (by decide)] at hcheck
        exact hcheck.symm

/-- A fill that returns 0 has walked to the page, and has put its entry in place. -/
theorem handleMmuFault_zero {isSoftmmu : Bool}
    (hfill : (env.handleMmuFault machine addr accessType mmuIdx isSoftmmu).1 = 0) :
    ∃ physAddr prot, env.getPhysAddr machine.ldlPhys addr accessType (mmuIdx == mmuUserIdx) = .ok (physAddr, prot) ∧
      env.handleMmuFault machine addr accessType mmuIdx isSoftmmu =
        (0, env.tlbSetPage machine (addr &&& targetPageMask) (physAddr &&& targetPageMask) prot mmuIdx isSoftmmu) := by
  unfold handleMmuFault at hfill ⊢
  cases hwalk : env.getPhysAddr machine.ldlPhys addr accessType (mmuIdx == mmuUserIdx) with
  | error ret =>
    rw [hwalk] at hfill
    cases accessType <;> simp at hfill
  | ok res => exact ⟨res.1, res.2, rfl, rfl⟩

/-- **Which fills serve their access**: all of them, except a write to a read-only region of the MPU. -/
theorem fill_serves_iff (hmem : machine.memcheckInstrumentMmu = false)
    (hfill : (env.handleMmuFault machine addr accessType mmuIdx true).1 = 0) :
    env.FillServes machine addr accessType mmuIdx ↔
      ¬ env.MpuReadOnlyWrite addr accessType (mmuIdx == mmuUserIdx) := by
  obtain ⟨physAddr, prot, hwalk, hstate⟩ := handleMmuFault_zero hfill
  obtain ⟨hprot, hwrite⟩ := getPhysAddr_write hwalk
  rw [← hwrite, ← @lets_tlbSetPage env machine addr (physAddr &&& targetPageMask) prot _ mmuIdx hmem true hprot,
    FillServes, hstate]
  refine and_iff_left_of_imp fun hlets hmiss fuel => ?_
  rw [redo, if_neg hmiss, hstate]
  dsimp only
  rw [if_neg (by simp), redo, if_pos hlets]

/-- **The loop of a write to a read-only region of the MPU does not end**, however often it fills the entry. -/
theorem redo_endless (hmem : machine.memcheckInstrumentMmu = false)
    (hfill : (env.handleMmuFault machine addr accessType mmuIdx true).1 = 0)
    (hmiss : ¬ (env.tlbTable mmuIdx (tlbIndex addr)).Lets accessType addr)
    (hreadOnly : env.MpuReadOnlyWrite addr accessType (mmuIdx == mmuUserIdx)) (fuel refills : ℕ) :
    env.redo machine addr accessType mmuIdx fuel refills = none := by
  induction fuel generalizing env refills with
  | zero => rfl
  | succ fuel ih =>
    obtain ⟨physAddr, prot, hwalk, hstate⟩ := handleMmuFault_zero hfill
    obtain ⟨hprot, hwrite⟩ := getPhysAddr_write hwalk
    rw [redo, if_neg hmiss, hstate]
    dsimp only
    rw [if_neg (by simp)]
    -- the fill changes the tables only, so that the next walk is the same
    apply ih
    · have hzero : ∀ e : CPUState, e.getPhysAddr machine.ldlPhys addr accessType (mmuIdx == mmuUserIdx) =
          .ok (physAddr, prot) → (e.handleMmuFault machine addr accessType mmuIdx true).1 = 0 := by
        intro e he
        rw [handleMmuFault, he]
      exact hzero _ hwalk
    · rw [lets_tlbSetPage hmem true hprot, hwrite]
      exact not_not.2 hreadOnly
    · exact hreadOnly

/-- A region of 4 KiB that user code may read and not write. -/
def regionState : CPUState :=
  { sectionState with
    cp15 := { sectionState.cp15 with
      c5Data := 2
      c6Region := fun n => if n = 0 then 0x17#32 else 0
      c2Mask_high := by decide }
    features := { sectionState.features with mpu := true } }

theorem regionState_readOnly : regionState.MpuReadOnlyWrite 0x40#32 .write true :=
  ⟨rfl, by decide, rfl, 0, rfl, .inl ⟨rfl, rfl⟩⟩

/-- User code writes to it: the fill returns 0, and the loop goes on for ever. -/
theorem fill_serves_not :
    (regionState.handleMmuFault (sectionMachine 0) 0x40#32 .write 1 true).1 = 0 ∧
      ¬ ((regionState.handleMmuFault (sectionMachine 0) 0x40#32 .write 1 true).2.tlbTable 1
        (tlbIndex 0x40#32)).Lets .write 0x40#32 ∧
      ∀ fuel, regionState.redo (sectionMachine 0) 0x40#32 .write 1 fuel 0 = none :=
  ⟨rfl, by decide, fun fuel => redo_endless rfl rfl (by decide) regionState_readOnly fuel 0⟩

theorem fill_serves_section : sectionState.FillServes (sectionMachine 0) 0x8000#32 .write 0 :=
  (fill_serves_iff rfl rfl).2 (fun h => absurd h.2.2.1 (by decide))

end CPUState

end Emulator.Arm
