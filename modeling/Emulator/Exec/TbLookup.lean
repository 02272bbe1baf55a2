import Emulator.Exec.TbFindInv

/-!
# What a lookup gives

A lookup in a state with the invariants of `TbFindInv`.

* `tbGenCode_right`: a block that is translated is on the pages of its addresses, and keeps the invariants. All other
  blocks may have to go for it.
* `tbFindSlow_right`, `tbFindFast_right`: **so is a block that is found**, in the hash chain or in the jump cache, and
  nothing is translated that is there.
-/

namespace Emulator.Exec

open Function Blocks TbState Option

variable {s s' : ExecState} {L L' : TbLists} {c : CodeBuffer} {env t u : ℕ} {cpu : TbCpuState} {code : Option GenCode}

/-- What `cpu_gen_code` promises: code of one page at most, and jumps inside of the page, in the same mode. -/
structure GenCode.Ok (cpu : TbCpuState) (g : GenCode) : Prop where
  size_pos : 0 < g.size
  size_le : g.size ≤ 1024
  code_pos : 0 < g.codeGenSize
  fits : g.codeGenSize ≤ codeGenMaxBlockSize
  exits : ∀ n st, g.exits n = some st → pageBase st.pc = pageBase cpu.pc ∧ st.mmuIdx = cpu.mmuIdx

/-- No CPU is in a block whose jumps are chained. -/
def ExecState.Quiet (s : ExecState) : Prop :=
  ∀ env t, (s.tbs.cpus env).currentTb = some t → ∀ n, (s.tbs.tb t).jmpNext n = none

theorem setFlag_ok {s : TbState} (h : TbsOK s L) (flag : Bool) : TbsOK { s with tbInvalidatedFlag := flag } L :=
  ⟨h.jumps, h.placed, h.hash, h.mem_hash, h.page, h.pageNodup, h.mem_page, h.present, h.current⟩

theorem LookupOK.setFlag (h : LookupOK s L) (flag : Bool) :
    LookupOK { s with tbs := { s.tbs with tbInvalidatedFlag := flag } } L := by
  refine h.frame (setFlag_ok h.tbs flag) (.refl L) (fun _ _ => rfl) (fun _ _ => ⟨rfl, rfl, rfl⟩) fun env slot u hu => ?_
  exact ⟨hu, (h.cache env slot u hu).1, fun hfit => hfit.congr rfl rfl rfl fun _ => rfl⟩

/-- A block that is not live is written. -/
theorem LookupOK.setBlock (h : LookupOK s L) (ht : t ∉ L.live) (code : TbCode) (htbs : s'.tbs = s.tbs.tbGenCode t code)
    (hkey : ∀ u, u ≠ t → s'.csBase u = s.csBase u ∧ s'.flags u = s.flags u ∧ s'.exits u = s.exits u)
    (hpage : s'.codePage = s.codePage) : LookupOK s' L := by
  have hne : ∀ u ∈ L.live, u ≠ t := fun u hu he => ht (he ▸ hu)
  have hcode : ∀ u ∈ L.live, (s'.tbs.tb u).toTbCode = (s.tbs.tb u).toTbCode := by
    intro u hu
    rw [htbs]
    simp [TbState.tbGenCode, hne u hu]
  have hcpu : ∀ u ∈ L.live, s'.cpuState u = s.cpuState u := by
    intro u hu
    obtain ⟨hbase, hflags, -⟩ := hkey u (hne u hu)
    rw [ExecState.cpuState, ExecState.cpuState, congrArg TbCode.pc (hcode u hu), hbase, hflags]
  refine h.frame (htbs ▸ tbGenCode_ok h.tbs ht code) (.refl L) hcode (fun u hu => hkey u (hne u hu))
    fun env slot u hu => ?_
  rw [htbs] at hu
  have hlive := (h.cache env slot u hu).1
  exact ⟨hu, hlive, fun hfit => hfit.congr (hcode u hlive) (hcpu u hlive) (by rw [hpage]) fun _ => by rw [hpage]⟩

/-- The new block, before its code is there. -/
structure Started (c : CodeBuffer) (s s' : ExecState) (cpu : TbCpuState) (tb : ℕ) (L' : TbLists) : Prop where
  lookup : LookupOK s' L'
  alloc : AllocOK c s' L'.live
  last : s'.nbTbs = tb + 1
  small : s'.codeGenPtr - c.codeGenBuffer < c.codeGenBufferMaxSize
  ptr : (s'.tbs.tb tb).tcPtr = s'.codeGenPtr
  cpu : s'.cpuState tb = cpu
  codePage : s'.codePage = s.codePage
  others : ∀ u ∈ L'.live, (s'.tbs.tb u).toTbCode = (s.tbs.tb u).toTbCode ∧ s'.exits u = s.exits u ∧
    s'.cpuState u = s.cpuState u

variable {tb : ℕ}

theorem Started.fresh (h : Started c s s' cpu tb L') : tb ∉ L'.live := by
  intro hmem
  exact absurd h.ptr (h.alloc.behind tb hmem).ne

theorem tbAlloc_ok (h : LookupOK s L) (ha : AllocOK c s L.live) (hblocks : s.nbTbs < c.codeGenMaxBlocks)
    (hsize : s.codeGenPtr - c.codeGenBuffer < c.codeGenBufferMaxSize) (cpu : TbCpuState) :
    ∃ s₁, s.tbAlloc c cpu.pc = some (s₁, s.nbTbs) ∧ s₁.tbs.tbInvalidatedFlag = s.tbs.tbInvalidatedFlag ∧
      Started c s (s₁.startCode s.nbTbs cpu) cpu s.nbTbs L := by
  have ht : s.nbTbs ∉ L.live := fun hmem => (ha.index _ hmem).false
  have hne : ∀ u ∈ L.live, u ≠ s.nbTbs := fun u hu he => ht (he ▸ hu)
  refine ⟨_, if_neg (by omega), rfl, ?_⟩
  simp only [ExecState.startCode, update_self, update_idem]
  refine ⟨?_, ?_, rfl, hsize, ?_, ?_, rfl, fun u hu => ⟨?_, rfl, ?_⟩⟩
  · refine h.setBlock ht { (s.tbs.tb s.nbTbs).toTbCode with pc := cpu.pc, tcPtr := s.codeGenPtr } rfl ?_ rfl
    intro u hu
    simp [hu]
  · -- the code of the new block starts where the last one ends, behind all others
    obtain ⟨hstart, hroom, hindex, hmono, hle, hstrict, hbehind⟩ := ha
    refine ⟨hstart, hroom, fun u hu => Nat.lt_succ_of_lt (hindex u hu), fun u v huv hv => ?_, fun u hu => ?_,
      fun u hu v huv hv => ?_, fun u hu => ?_⟩
    · simp only at hv ⊢
      by_cases hvt : v = s.nbTbs
      · by_cases hut : u = s.nbTbs
        · rw [hut, hvt]
        · simp only [hvt, update_self, update_of_ne hut]
          exact (hle u (by omega)).2.1
      · have hut : u ≠ s.nbTbs := by omega
        simp only [update_of_ne hvt, update_of_ne hut]
        exact hmono u v huv (by omega)
    · simp only at hu ⊢
      by_cases hut : u = s.nbTbs
      · simp only [hut, update_self]
        exact ⟨hstart.1, le_rfl, hstart.2⟩
      · simp only [update_of_ne hut]
        exact hle u (by omega)
    · simp only at hv ⊢
      simp only [update_of_ne (hne u hu)]
      by_cases hvt : v = s.nbTbs
      · simp only [hvt, update_self]
        exact hbehind u hu
      · simp only [update_of_ne hvt]
        exact hstrict u hu v huv (by omega)
    · simp only [update_of_ne (hne u hu)]
      exact hbehind u hu
  · simp
  · simp [ExecState.cpuState]
  · simp [hne u hu]
  · simp [ExecState.cpuState, hne u hu]

theorem tbFlush_exec_ok (hc : CodeBuffer.Usable c) (h : LookupOK s L) (ha : AllocOK c s L.live) (hquiet : s.Quiet) :
    ∃ s₁, s.tbFlush c = some s₁ ∧ LookupOK s₁ TbLists.empty ∧ AllocOK c s₁ ∅ ∧ s₁.nbTbs = 0 ∧
      s₁.codeGenPtr = c.codeGenBuffer ∧ s₁.codePage = s.codePage := by
  have hin := ha.room
  refine ⟨_, if_neg (by omega), ?_, ?_, rfl, rfl, rfl⟩
  · refine h.frame (tbFlush_ok hquiet) ⟨?_, ?_⟩ ?_ ?_ fun env slot u hu => ?_
    · exact fun t ht => absurd ht (Finset.notMem_empty t)
    · exact fun t ht => absurd ht (Finset.notMem_empty t)
    · exact fun t ht => absurd ht (Finset.notMem_empty t)
    · exact fun t ht => absurd ht (Finset.notMem_empty t)
    · simp [TbState.tbFlush, pageFlushTb] at hu
  · refine ⟨⟨le_rfl, hc.aligned⟩, by simp, ?_, ?_, ?_, ?_, ?_⟩
    · exact fun t ht => absurd ht (Finset.notMem_empty t)
    · exact fun _ _ _ hu => absurd hu (Nat.not_lt_zero _)
    · exact fun _ hu => absurd hu (Nat.not_lt_zero _)
    · exact fun t ht => absurd ht (Finset.notMem_empty t)
    · exact fun t ht => absurd ht (Finset.notMem_empty t)

/-- A block is allocated, and if all others have to go for it the flag tells. -/
theorem tbAllocOrFlush_ok (hc : CodeBuffer.Usable c) (h : LookupOK s L) (ha : AllocOK c s L.live) (hquiet : s.Quiet)
    (cpu : TbCpuState) :
    ∃ s₁ tb L', s.tbAllocOrFlush c cpu.pc = some (s₁, tb) ∧ Started c s (s₁.startCode tb cpu) cpu tb L' ∧
      (L' = L ∨ s₁.tbs.tbInvalidatedFlag = true) := by
  by_cases hroom : s.nbTbs < c.codeGenMaxBlocks ∧ s.codeGenPtr - c.codeGenBuffer < c.codeGenBufferMaxSize
  · obtain ⟨s₁, hrun, -, hstarted⟩ := tbAlloc_ok h ha hroom.1 hroom.2 cpu
    refine ⟨s₁, _, L, ?_, hstarted, .inl rfl⟩
    rw [ExecState.tbAllocOrFlush, hrun]
  · have hfull : s.tbAlloc c cpu.pc = none := if_pos (by omega)
    obtain ⟨s₁, hflush, h₁, ha₁, hnb, hptr, hpage⟩ := tbFlush_exec_ok hc h ha hquiet
    obtain ⟨s₂, hrun, -, hstarted⟩ := tbAlloc_ok h₁ ha₁ (by rw [hnb]; exact hc.blocks)
      (by rw [hptr, Nat.sub_self]; exact hc.size) cpu
    refine ⟨{ s₂ with tbs := { s₂.tbs with tbInvalidatedFlag := true } }, s₁.nbTbs, TbLists.empty, ?_, ?_, .inr rfl⟩
    · simp only [ExecState.tbAllocOrFlush, hfull, hflush, hrun, bind_eq_bind, bind_some]
      rfl
    · refine ⟨hstarted.lookup.setFlag true, hstarted.alloc.frame (fun _ ht => ht) (fun _ => rfl) rfl rfl, hstarted.last,
        hstarted.small, hstarted.ptr, hstarted.cpu, hstarted.codePage.trans hpage, ?_⟩
      exact fun t ht => absurd ht (Finset.notMem_empty t)

theorem tbAllocPage_flag {s s' : TbState} {n : Fin 2} {a : TargetUlong} (h : s.tbAllocPage t n a = some s') :
    s'.tbInvalidatedFlag = s.tbInvalidatedFlag := by
  obtain ⟨p, -, h⟩ := bind_eq_some_iff.1 h
  obtain rfl := Option.some.inj h
  have halloc : ∀ (s : TbState) (i : ℕ), (s.pageFindAlloc i).tbInvalidatedFlag = s.tbInvalidatedFlag := by
    intro s i
    unfold pageFindAlloc
    cases s.l1Map (i / 1024) <;> rfl
  split_ifs
  · exact halloc _ _
  · exact halloc _ _

theorem tbLinkPhys_flag {s s' : TbState} {physPc physPage2 : TargetUlong}
    (h : s.tbLinkPhys t physPc physPage2 = some s') :
    s'.tbInvalidatedFlag = s.tbInvalidatedFlag := by
  obtain ⟨s₁, h₁, h⟩ := bind_eq_some_iff.1 h
  have hfirst := tbAllocPage_flag h₁
  simp only at h
  split_ifs at h
  · obtain ⟨s₂, h₂, h⟩ := bind_eq_some_iff.1 h
    obtain rfl := Option.some.inj h
    exact (tbAllocPage_flag h₂).trans hfirst
  · obtain rfl := Option.some.inj h
    exact hfirst

theorem physPage2_some {size : ℕ} (hpos : 0 < size) (hle : size ≤ 1024) {p : TargetUlong}
    (h : s.physPage2 env cpu size = some p) :
    (pageOffset cpu.pc).toNat + size ≤ 1024 ∧ p = -1 ∨
      1024 < (pageOffset cpu.pc).toNat + size ∧ s.getPhysAddrCode env cpu.mmuIdx (pageBase cpu.pc + 0x400) =
        some p := by
  unfold ExecState.physPage2 at h
  rcases base_last cpu.pc hpos hle with ⟨hin, hlast⟩ | ⟨hout, hlast, hne⟩
  · rw [hlast, if_neg (not_not.2 rfl)] at h
    exact .inl ⟨hin, (Option.some.inj h).symm⟩
  · rw [hlast, if_pos hne] at h
    exact .inr ⟨hout, h⟩

theorem physPage2_none {size : ℕ} (hpos : 0 < size) (hle : size ≤ 1024) (h : s.physPage2 env cpu size = none) :
    s.getPhysAddrCode env cpu.mmuIdx (pageBase cpu.pc + 0x400) = none := by
  unfold ExecState.physPage2 at h
  rcases base_last cpu.pc hpos hle with ⟨-, hlast⟩ | ⟨-, hlast, hne⟩
  · rw [hlast, if_neg (not_not.2 rfl)] at h
    cases h
  · rw [hlast, if_pos hne] at h
    exact h

/-- A physical address has the offset of the address that is mapped to it. -/
theorem offset_getPhysAddrCode {mmuIdx : Fin 2} {addr phys : TargetUlong}
    (h : s.getPhysAddrCode env mmuIdx addr = some phys) :
    pageOffset phys = pageOffset addr := by
  obtain ⟨page, -, rfl⟩ := map_eq_some_iff.1 h
  exact pageOffset_base_add_offset page addr

/-- The address of the next page has no offset. -/
theorem pageOffset_next (a : TargetUlong) : pageOffset (pageBase a + 0x400) = 0 := by
  rw [← BitVec.toNat_inj, toNat_pageOffset, BitVec.toNat_add, toNat_pageBase]
  change (a.toNat / 1024 * 1024 + 1024) % 2 ^ 32 % 1024 = 0
  omega

/-- The new block with its code, before `tb_link_phys`. -/
structure Coded (c : CodeBuffer) (s s' : ExecState) (cpu : TbCpuState) (tb : ℕ) (g : GenCode) (L' : TbLists) :
    Prop where
  lookup : LookupOK s' L'
  alloc : AllocOK c s' (insert tb L'.live)
  fresh : tb ∉ L'.live
  cpu : s'.cpuState tb = cpu
  size : (s'.tbs.tb tb).size = g.size
  exits : s'.exits tb = g.exits
  codePage : s'.codePage = s.codePage
  others : ∀ u ∈ L'.live, (s'.tbs.tb u).toTbCode = (s.tbs.tb u).toTbCode ∧ s'.exits u = s.exits u ∧
    s'.cpuState u = s.cpuState u

variable {g : GenCode}

theorem Started.endCode_alloc (hc : CodeBuffer.Usable c) (h : Started c s s' cpu tb L') (hg : g.Ok cpu) :
    AllocOK c (s'.endCode tb g) (insert tb L'.live) := by
  obtain ⟨-, ⟨hstart, hroom, hindex, hmono, hle, hstrict, hbehind⟩, hlast, hsmall, hptr, -, -, -⟩ := h
  have hend := CodeBuffer.lt_alignCode hg.code_pos s'.codeGenPtr
  have haligned := CodeBuffer.alignCode_aligned (s'.codeGenPtr + g.codeGenSize)
  have hblock := CodeBuffer.alignCode_block_le hstart.2 hg.fits
  have hroom' := hc.last
  -- the end of the code moves, each block keeps its start
  have htc : ∀ u, ((s'.endCode tb g).tbs.tb u).tcPtr = (s'.tbs.tb u).tcPtr := by
    intro u
    by_cases hut : u = tb
    · simp [ExecState.endCode, hut]
    · simp [ExecState.endCode, hut]
  have hcode : (s'.endCode tb g).codeGenPtr = CodeBuffer.alignCode (s'.codeGenPtr + g.codeGenSize) := rfl
  have hnb : (s'.endCode tb g).nbTbs = s'.nbTbs := rfl
  refine ⟨?_, ?_, fun u hu => ?_, fun u v huv hv => ?_, fun u hu => ?_, fun u hu v huv hv => ?_, fun u hu => ?_⟩
  · omega
  · omega
  · rcases Finset.mem_insert.1 hu with rfl | hu
    · omega
    · exact hindex u hu
  · rw [htc, htc]
    exact hmono u v huv hv
  · have hu' := hle u hu
    rw [htc]
    omega
  · rw [htc, htc]
    rcases Finset.mem_insert.1 hu with rfl | hu
    · omega
    · exact hstrict u hu v huv hv
  · rw [htc]
    rcases Finset.mem_insert.1 hu with rfl | hu
    · omega
    · have hu' := hbehind u hu
      omega

/-- What is known of a block when its code is there. -/
theorem Started.endCode (hc : CodeBuffer.Usable c) (h : Started c s s' cpu tb L') (hg : g.Ok cpu) :
    Coded c s (s'.endCode tb g) cpu tb g L' := by
  have hne : ∀ u ∈ L'.live, u ≠ tb := fun u hu he => h.fresh (he ▸ hu)
  refine ⟨?_, h.endCode_alloc hc hg, h.fresh, ?_, ?_, ?_, h.codePage, fun u hu => ?_⟩
  · refine h.lookup.setBlock h.fresh
      { (s'.tbs.tb tb).toTbCode with size := g.size, tbNextOffset := g.tbNextOffset } rfl ?_ rfl
    intro u hu
    simp [ExecState.endCode, hu]
  · rw [← h.cpu]
    simp [ExecState.cpuState, ExecState.endCode]
  · simp [ExecState.endCode]
  · simp [ExecState.endCode]
  · obtain ⟨hu₁, hu₂, hu₃⟩ := h.others u hu
    rw [← hu₁, ← hu₂, ← hu₃]
    simp [ExecState.cpuState, ExecState.endCode, hne u hu]

/-- The pages are those that `tb_link_phys` wants. -/
theorem Coded.linkable (h : Coded c s s' cpu tb g L') (hg : g.Ok cpu)
    {physPc physPage2 : TargetUlong}
    (hphys : s'.getPhysAddrCode env cpu.mmuIdx cpu.pc = some physPc)
      (hsecond : s'.physPage2 env cpu g.size = some physPage2) :
    Linkable (s'.tbs.tb tb).toTbCode physPc physPage2 := by
  have hpc : (s'.tbs.tb tb).pc = cpu.pc := congrArg TbCpuState.pc h.cpu
  have hcases := physPage2_some hg.size_pos hg.size_le hsecond
  refine ⟨h.size ▸ hg.size_pos, h.size ▸ hg.size_le, ?_, fun hin => ?_, fun hout => ?_⟩
  · rw [hpc]
    exact offset_getPhysAddrCode hphys
  · rw [hpc, h.size] at hin
    rcases hcases with ⟨-, hone⟩ | ⟨hout, -⟩
    · exact hone
    · omega
  · rw [hpc, h.size] at hout
    rcases hcases with ⟨hin, -⟩ | ⟨-, htwo⟩
    · omega
    · rw [offset_getPhysAddrCode htwo]
      exact pageOffset_next cpu.pc

/-- The new block is linked, and it is on the pages of its addresses. -/
theorem Coded.link (h : Coded c s s' cpu tb g L') (hg : g.Ok cpu)
    {physPc physPage2 : TargetUlong}
    (hphys : s'.getPhysAddrCode env cpu.mmuIdx cpu.pc = some physPc)
      (hsecond : s'.physPage2 env cpu g.size = some physPage2) :
    ∃ tbs L₂, s'.tbs.tbLinkPhys tb physPc physPage2 = some tbs ∧ LookupOK { s' with tbs } L₂ ∧
      AllocOK c { s' with tbs } L₂.live ∧ tb ∈ L₂.live ∧ ({ s' with tbs } : ExecState).cpuState tb = cpu ∧
      ({ s' with tbs } : ExecState).Fits env tb ∧ ∀ u ∈ L'.live, u ∈ L₂.live ∧
        (tbs.tb u).toTbCode = (s.tbs.tb u).toTbCode ∧
        s'.exits u = s.exits u ∧ ({ s' with tbs } : ExecState).cpuState u = s.cpuState u := by
  have hpc : (s'.tbs.tb tb).pc = cpu.pc := congrArg TbCpuState.pc h.cpu
  have hne : ∀ u ∈ L'.live, u ≠ tb := fun u hu he => h.fresh (he ▸ hu)
  obtain ⟨tbs, hlink, hok, hby⟩ := tbLinkPhys_ok h.lookup.tbs h.fresh (h.linkable hg hphys hsecond)
  have hcpus : ∀ u, ({ s' with tbs } : ExecState).cpuState u = s'.cpuState u := cpuState_congr hby.pc
  have hexits : ∀ n st, s'.exits tb n = some st →
      pageBase st.pc = pageBase (s'.tbs.tb tb).pc ∧ st.mmuIdx = (s'.cpuState tb).mmuIdx := by
    intro n st hst
    rw [hpc, h.cpu]
    exact hg.exits n st (h.exits ▸ hst)
  -- the pages are those that the addresses of the block are mapped to
  have haddr : (tbs.tb tb).pageAddr 0 = pageBase physPc ∧ (tbs.tb tb).pageAddr 1 = physPage2 := by
    rw [congrArg TbCode.pageAddr hby.code]
    exact ⟨by simp [pageBase], by simp⟩
  refine ⟨tbs, L'.insert tbs.tb tb (tbPhysHashFunc physPc), hlink, h.lookup.link h.fresh hok hby hexits, ?_,
    Finset.mem_insert_self tb _, (hcpus tb).trans h.cpu, ⟨?_, fun htwo => ?_⟩, fun u hu => ?_⟩
  · refine h.alloc.frame (fun u hu => hu) (fun u => ?_) rfl rfl
    by_cases hut : u = tb
    · rw [hut, congrArg TbCode.tcPtr hby.code]
    · exact congrArg TbCode.tcPtr (hby.others u hut)
  · rw [hcpus, h.cpu]
    change (s'.getPhysAddrCode env cpu.mmuIdx (tbs.tb tb).pc).map pageBase = some ((tbs.tb tb).pageAddr 0)
    rw [hby.pc, hpc, hphys, haddr.1]
    rfl
  · change (tbs.tb tb).pageAddr 1 ≠ -1 at htwo
    rw [hcpus, h.cpu]
    change s'.getPhysAddrCode env cpu.mmuIdx (pageBase (tbs.tb tb).pc + 0x400) = some ((tbs.tb tb).pageAddr 1)
    rw [haddr.2] at htwo ⊢
    rw [hby.pc, hpc]
    exact (physPage2_some hg.size_pos hg.size_le hsecond).elim (fun hone => absurd hone.2 htwo) And.right
  · obtain ⟨hu₁, hu₂, hu₃⟩ := h.others u hu
    exact ⟨Finset.mem_insert_of_mem hu, (hby.others u (hne u hu)).trans hu₁, hu₂, (hcpus u).trans hu₃⟩

/-- What a lookup gives: no block only if an address can not be read. -/
structure LookedUp (c : CodeBuffer) (s s' : ExecState) (env : ℕ) (cpu : TbCpuState) (code : Option GenCode)
    (L L' : TbLists)
    (r : Option ℕ) : Prop where
  lookup : LookupOK s' L'
  alloc : AllocOK c s' L'.live
  codePage : s'.codePage = s.codePage
  kept : s'.tbs.tbInvalidatedFlag = true ∨ ∀ u ∈ L.live, u ∈ L'.live ∧ (s'.tbs.tb u).toTbCode = (s.tbs.tb u).toTbCode ∧
    s'.exits u = s.exits u ∧ s'.cpuState u = s.cpuState u
  found : ∀ tb, r = some tb → tb ∈ L'.live ∧ s'.cpuState tb = cpu ∧ s'.Fits env tb
  fault : r = none → s.getPhysAddrCode env cpu.mmuIdx cpu.pc = none ∨
    s.getPhysAddrCode env cpu.mmuIdx (pageBase cpu.pc + 0x400) = none ∨ code = none

theorem getPhysAddrCode_congr (h : s'.codePage = s.codePage) (env : ℕ) (mmuIdx : Fin 2) (addr : TargetUlong) :
    s'.getPhysAddrCode env mmuIdx addr = s.getPhysAddrCode env mmuIdx addr := by
  rw [ExecState.getPhysAddrCode, ExecState.getPhysAddrCode, h]

theorem tbGenCode_right (hc : CodeBuffer.Usable c) (h : LookupOK s L) (ha : AllocOK c s L.live)
    (hquiet : s.Quiet) (env : ℕ) (hcode : ∀ g, code = some g → g.Ok cpu) :
    ∃ s' r L', s.tbGenCode c env cpu code = some (s', r) ∧ LookedUp c s s' env cpu code L L' r := by
  cases hphys : s.getPhysAddrCode env cpu.mmuIdx cpu.pc with
  | none =>
    refine ⟨s, none, L, ?_, h, ha, rfl, .inr fun u hu => ⟨hu, rfl, rfl, rfl⟩, fun tb htb => ?_, fun _ => .inl hphys⟩
    · rw [ExecState.tbGenCode, hphys]
    · cases htb
  | some physPc =>
    obtain ⟨s₁, tb, L₁, halloc, hst, hflag⟩ := tbAllocOrFlush_ok hc h ha hquiet cpu
    -- the flag tells of a flush; without one every block stays live
    have hkept : (s₁.startCode tb cpu).tbs.tbInvalidatedFlag = true ∨ ∀ u ∈ L.live, u ∈ L₁.live := by
      rcases hflag with rfl | hflag
      · exact .inr fun u hu => hu
      · exact .inl hflag
    cases code with
    | none =>
      refine ⟨s₁.startCode tb cpu, none, L₁, ?_, hst.lookup, hst.alloc, hst.codePage, ?_, fun tb htb => ?_,
        fun _ => .inr (.inr rfl)⟩
      · simp only [ExecState.tbGenCode, hphys, halloc, bind_eq_bind, bind_some]
      · exact hkept.imp_right fun hin u hu => ⟨hin u hu, hst.others u (hin u hu)⟩
      · cases htb
    | some g =>
      have hg := hcode g rfl
      have hcoded := hst.endCode hc hg
      obtain ⟨s₂, hs₂⟩ : ∃ s₂, (s₁.startCode tb cpu).endCode tb g = s₂ := ⟨_, rfl⟩
      have hflag₂ : s₂.tbs.tbInvalidatedFlag = (s₁.startCode tb cpu).tbs.tbInvalidatedFlag := hs₂ ▸ rfl
      rw [hs₂] at hcoded
      have hphys₂ := (getPhysAddrCode_congr hcoded.codePage env cpu.mmuIdx cpu.pc).trans hphys
      -- the second page is read when the size is known
      cases hsecond : s₂.physPage2 env cpu g.size with
      | none =>
        refine ⟨s₂, none, L₁, ?_, hcoded.lookup,
          hcoded.alloc.frame (fun u hu => Finset.mem_insert_of_mem hu) (fun _ => rfl) rfl rfl,
          hcoded.codePage, ?_, fun tb htb => ?_, fun _ => .inr (.inl ?_)⟩
        · simp only [ExecState.tbGenCode, hphys, halloc, bind_eq_bind, bind_some, hs₂, hsecond]
        · exact hkept.imp hflag₂.trans fun hin u hu => ⟨hin u hu, hcoded.others u (hin u hu)⟩
        · cases htb
        · rw [← getPhysAddrCode_congr hcoded.codePage]
          exact physPage2_none hg.size_pos hg.size_le hsecond
      | some physPage2 =>
        obtain ⟨tbs, L₂, hlink, hlookup, halloc₂, hlive, hcpu, hfit, hothers⟩ := hcoded.link hg hphys₂ hsecond
        refine ⟨{ s₂ with tbs }, some tb, L₂, ?_, hlookup, halloc₂, hcoded.codePage, ?_, fun tb' htb => ?_,
          fun hr => ?_⟩
        · simp only [ExecState.tbGenCode, hphys, halloc, bind_eq_bind, bind_some, hs₂, hsecond, hlink]
          rfl
        · exact hkept.imp (fun hf => (tbLinkPhys_flag hlink).trans (hflag₂.trans hf)) fun hin u hu =>
            hothers u (hin u hu)
        · obtain rfl := Option.some.inj htb
          exact ⟨hlive, hcpu, hfit⟩
        · cases hr

theorem LookupOK.cacheTb (h : LookupOK s L) (htb : tb ∈ L.live) (hfit : s.Fits env tb)
    (hcpu : s.cpuState tb = cpu) :
    LookupOK (s.cacheTb env cpu.pc tb) L := by
  have hpc : (s.tbs.tb tb).pc = cpu.pc := congrArg TbCpuState.pc hcpu
  refine ⟨h.tbs.setCpus rfl fun e t ht => ?_, h.exits, fun e slot t hslot => ?_, h.chained⟩
  · refine h.tbs.current e t ?_
    by_cases he : e = env
    · subst he
      simpa using ht
    · simpa [he] using ht
  · have hold : (s.tbs.cpus e).tbJmpCache slot = some t ∨ e = env ∧ slot = ExecState.jmpCacheSlot cpu.pc ∧ t = tb := by
      by_cases he : e = env
      · subst he
        by_cases hs : slot = ExecState.jmpCacheSlot cpu.pc
        · subst hs
          refine .inr ⟨rfl, rfl, ?_⟩
          simpa [ExecState.cacheTb, eq_comm] using hslot
        · exact .inl (by simpa [ExecState.cacheTb, hs] using hslot)
      · exact .inl (by simpa [ExecState.cacheTb, he] using hslot)
    have hsame : ∀ e t, s.Fits e t → (s.cacheTb env cpu.pc tb).Fits e t :=
      fun e t hfit => hfit.congr rfl rfl rfl fun _ => rfl
    rcases hold with hold | ⟨rfl, rfl, rfl⟩
    · obtain ⟨hlive, heq, hfit⟩ := h.cache e slot t hold
      exact ⟨hlive, heq, hsame e t hfit⟩
    · exact ⟨htb, by rw [← hpc]; rfl, hsame e t hfit⟩

variable {physPc : TargetUlong}

/-- A block that matches is one of the chain, and its pages are those of the addresses. -/
theorem matches_iff (hphys : s.getPhysAddrCode env cpu.mmuIdx cpu.pc = some physPc) :
    s.Matches env cpu (pageBase physPc) t ↔ s.cpuState t = cpu ∧ s.Fits env t := by
  constructor
  · rintro ⟨rfl, hfirst, hsecond⟩
    refine ⟨rfl, ?_, hsecond⟩
    rw [hfirst]
    exact congrArg (Option.map pageBase) hphys
  · rintro ⟨rfl, hfirst, hsecond⟩
    refine ⟨rfl, ?_, hsecond⟩
    have hphys' : s.getPhysAddrCode env (s.cpuState t).mmuIdx (s.tbs.tb t).pc = some physPc := hphys
    rw [hphys'] at hfirst
    exact (Option.some.inj hfirst).symm

/-- A block that fits is on the chain that is searched. -/
theorem mem_hashes_of_fits (h : TbsOK s.tbs L) (ht : t ∈ L.live)
    (hphys : s.getPhysAddrCode env cpu.mmuIdx cpu.pc = some physPc) (hcpu : s.cpuState t = cpu) (hfit : s.Fits env t) :
    t ∈ L.hashes (tbPhysHashFunc physPc) := by
  subst hcpu
  have hphys' : s.getPhysAddrCode env (s.cpuState t).mmuIdx (s.tbs.tb t).pc = some physPc := hphys
  have hfirst := hfit.first
  rw [hphys'] at hfirst
  have hpage : (s.tbs.tb t).pageAddr 0 = pageBase physPc := (Option.some.inj hfirst).symm
  refine (h.mem_hash _ t).2 ⟨ht, congrArg tbPhysHashFunc ?_⟩
  rw [TbState.physPc, hpage, ← offset_getPhysAddrCode hphys']
  exact and_not_add_and physPc 0x3ff#32

/-- A block that is found where nothing is changed. -/
theorem LookedUp.same (h : LookupOK s L) (ha : AllocOK c s L.live) (ht : t ∈ L.live) (hcpu : s.cpuState t = cpu)
    (hfit : s.Fits env t) : LookedUp c s s env cpu code L L (some t) := by
  refine ⟨h, ha, rfl, .inr fun u hu => ⟨hu, rfl, rfl, rfl⟩, fun tb htb => ?_, fun hr => ?_⟩
  · obtain rfl := Option.some.inj htb
    exact ⟨ht, hcpu, hfit⟩
  · cases hr

theorem LookedUp.cacheTb (h : LookedUp c s s' env cpu code L L' (some t)) :
    LookedUp c s (s'.cacheTb env cpu.pc t) env cpu code L L' (some t) := by
  obtain ⟨hlive, hcpu, hfit⟩ := h.found t rfl
  refine ⟨h.lookup.cacheTb hlive hfit hcpu, h.alloc.frame (fun _ hu => hu) (fun _ => rfl) rfl rfl, h.codePage, h.kept,
    fun tb htb => ?_, h.fault⟩
  obtain rfl := Option.some.inj htb
  exact ⟨hlive, hcpu, hfit.congr rfl rfl rfl fun _ => rfl⟩

/-- **The end of a search** through the chain, which translates only what is not there. -/
theorem endSearch_right (hc : CodeBuffer.Usable c) (h : LookupOK s L) (ha : AllocOK c s L.live) (hquiet : s.Quiet)
    (hcode : ∀ g, code = some g → g.Ok cpu)
    (hphys : s.getPhysAddrCode env cpu.mmuIdx cpu.pc = some physPc) {r : TbLookup}
    (hright : SearchRight s env cpu (pageBase physPc) (L.hashes (tbPhysHashFunc physPc)) r) :
    ∃ s' found L', s.endSearch c env cpu code r = some (s', found) ∧ LookedUp c s s' env cpu code L L' found ∧
      ((∃ tb ∈ L.live, s.cpuState tb = cpu ∧ s.Fits env tb) → s'.nbTbs = s.nbTbs) := by
  cases r with
  | fault =>
    refine ⟨s, none, L, rfl, ⟨h, ha, rfl, .inr fun u hu => ⟨hu, rfl, rfl, rfl⟩, fun tb htb => ?_, fun _ => ?_⟩,
      fun _ => rfl⟩
    · cases htb
    · exact .inr (.inl hright)
  | found tb =>
    obtain ⟨hmem, hmatch⟩ := hright
    obtain ⟨hcpu, hfit⟩ := (matches_iff hphys).1 hmatch
    exact ⟨_, some tb, L, rfl, (LookedUp.same h ha ((h.tbs.mem_hash _ tb).1 hmem).1 hcpu hfit).cacheTb, fun _ => rfl⟩
  | notFound =>
    obtain ⟨s₁, found, L₁, hgen, hlook⟩ := tbGenCode_right hc h ha hquiet env hcode
    -- there is no block that fits, as it would be on the chain
    have hnone : ¬ ∃ tb ∈ L.live, s.cpuState tb = cpu ∧ s.Fits env tb := by
      rintro ⟨tb, hlive, hcpu, hfit⟩
      exact hright tb (mem_hashes_of_fits h.tbs hlive hphys hcpu hfit) ((matches_iff hphys).2 ⟨hcpu, hfit⟩)
    have hend : s.endSearch c env cpu code .notFound = some (found.elim s₁ (s₁.cacheTb env cpu.pc), found) := by
      simp only [ExecState.endSearch, hgen, bind_eq_bind, bind_some]
      rfl
    cases found with
    | none => exact ⟨s₁, none, L₁, hend, hlook, fun hex => absurd hex hnone⟩
    | some tb => exact ⟨_, some tb, L₁, hend, hlook.cacheTb, fun hex => absurd hex hnone⟩

/-- `tb_invalidated_flag = 0`. -/
def ExecState.resetFlag (s : ExecState) : ExecState := { s with tbs := { s.tbs with tbInvalidatedFlag := false } }

theorem LookedUp.of_resetFlag {r : Option ℕ} (h : LookedUp c s.resetFlag s' env cpu code L L' r) :
    LookedUp c s s' env cpu code L L' r :=
  ⟨h.lookup, h.alloc, h.codePage, h.kept, h.found, h.fault⟩

theorem tbFindSlow_fault (hphys : s.getPhysAddrCode env cpu.mmuIdx cpu.pc = none) (fuel : ℕ) :
    s.tbFindSlow c fuel env cpu code = some (s.resetFlag, none) := by
  have hphys' : s.resetFlag.getPhysAddrCode env cpu.mmuIdx cpu.pc = none := hphys
  unfold ExecState.resetFlag at hphys'
  simp only [ExecState.tbFindSlow, hphys', ExecState.resetFlag]

theorem tbFindSlow_search (hphys : s.getPhysAddrCode env cpu.mmuIdx cpu.pc = some physPc)
    {fuel : ℕ}
    {r : TbLookup} (hrun : s.resetFlag.searchChain env cpu (pageBase physPc) fuel
      (s.resetFlag.tbs.tbPhysHash (tbPhysHashFunc physPc)) = some r) :
    s.tbFindSlow c fuel env cpu code = s.resetFlag.endSearch c env cpu code r := by
  have hphys' : s.resetFlag.getPhysAddrCode env cpu.mmuIdx cpu.pc = some physPc := hphys
  unfold ExecState.resetFlag at hphys' hrun
  simp only [ExecState.tbFindSlow, hphys']
  rw [hrun]
  rfl

/-- **A search through the hash chain.** -/
theorem tbFindSlow_right (hc : CodeBuffer.Usable c) (h : LookupOK s L) (ha : AllocOK c s L.live)
    (hquiet : s.Quiet) (env : ℕ)
    (hcode : ∀ g, code = some g → g.Ok cpu) :
    ∃ s' r L', Yields (s.tbFindSlow c · env cpu code) (s', r) ∧ LookedUp c s s' env cpu code L L' r ∧
      ((∃ tb ∈ L.live, s.cpuState tb = cpu ∧ s.Fits env tb) → s'.nbTbs = s.nbTbs) := by
  have h₀ : LookupOK s.resetFlag L := h.setFlag false
  have ha₀ : AllocOK c s.resetFlag L.live := ha.frame (fun _ hu => hu) (fun _ => rfl) rfl rfl
  cases hphys : s.getPhysAddrCode env cpu.mmuIdx cpu.pc with
  | none =>
    refine ⟨s.resetFlag, none, L, ⟨0, fun fuel _ => tbFindSlow_fault hphys fuel⟩, ⟨h₀, ha₀, rfl,
      .inr fun u hu => ⟨hu, rfl, rfl, rfl⟩, fun tb htb => ?_, fun _ => .inl hphys⟩, fun _ => rfl⟩
    cases htb
  | some physPc =>
    obtain ⟨r, hright, hrun⟩ := searchChain_right s.resetFlag env cpu (pageBase physPc)
      (h₀.tbs.hash.linked (tbPhysHashFunc physPc) trivial) rfl
    obtain ⟨s', found, L', hend, hlook, hkeeps⟩ := endSearch_right hc h₀ ha₀ hquiet hcode hphys hright
    refine ⟨s', found, L', ⟨_, fun fuel hfuel => (tbFindSlow_search hphys (hrun fuel hfuel)).trans hend⟩,
      hlook.of_resetFlag,
      fun hex => ?_⟩
    obtain ⟨tb, hlive, hcpu, hfit⟩ := hex
    exact hkeeps ⟨tb, hlive, hcpu, hfit.congr rfl rfl rfl fun _ => rfl⟩

/-- **A lookup** through the jump cache gives what a search would accept. -/
theorem tbFindFast_right (hc : CodeBuffer.Usable c) (h : LookupOK s L) (ha : AllocOK c s L.live)
    (hquiet : s.Quiet) (env : ℕ)
    (hcode : ∀ g, code = some g → g.Ok cpu) :
    ∃ s' r L', Yields (s.tbFindFast c · env cpu code) (s', r) ∧ LookedUp c s s' env cpu code L L' r ∧
      ((∃ tb ∈ L.live, s.cpuState tb = cpu ∧ s.Fits env tb) → s'.nbTbs = s.nbTbs) := by
  obtain ⟨s', r, L', ⟨N, hrun⟩, hright⟩ := tbFindSlow_right hc h ha hquiet env hcode
  have hmiss (hfast : ∀ fuel, s.tbFindFast c fuel env cpu code = s.tbFindSlow c fuel env cpu code) :
      Yields (s.tbFindFast c · env cpu code) (s', r) := ⟨N, fun fuel hfuel => (hfast fuel).trans (hrun fuel hfuel)⟩
  cases hslot : (s.tbs.cpus env).tbJmpCache (ExecState.jmpCacheSlot cpu.pc) with
  | none =>
    refine ⟨s', r, L', hmiss fun fuel => ?_, hright⟩
    rw [ExecState.tbFindFast, hslot]
  | some tb =>
    by_cases hcpu : s.cpuState tb = cpu
    · obtain ⟨hlive, -, hfit⟩ := h.cache env _ tb hslot
      refine ⟨s, some tb, L, ⟨0, fun fuel _ => ?_⟩, .same h ha hlive hcpu hfit, fun _ => rfl⟩
      simp only [ExecState.tbFindFast, hslot]
      exact if_pos hcpu
    · refine ⟨s', r, L', hmiss fun fuel => ?_, hright⟩
      simp only [ExecState.tbFindFast, hslot]
      exact if_neg hcpu

end Emulator.Exec
