import Emulator.Exec.TbLookup

/-!
# Lookups over whole runs

* `ExecReach`: the runs, in which CPUs look blocks up and chain jumps, blocks are translated, invalidated and freed,
  CPUs are interrupted, and TLBs are flushed.
* `tbFindFast_ok`: **a lookup gives a live block on the pages of its addresses**, the jump cache included, and
  translates only what is not there.
* `goes_fits`: **so are all blocks that are executed from there on without a lookup**: no TLB flush has to unchain a
  jump.
-/

namespace Emulator.Exec

open Function Blocks TbState BitVec Option

variable {s s' : ExecState} {L L' : TbLists} {c : CodeBuffer} {env t u : ℕ} {cpu : TbCpuState} {code : Option GenCode}

/-- A block that a jump inside of a page leads to is on the page of the jump. -/
theorem pageAddr_of_exit (h : LookupOK s L) (ht : t ∈ L.live) {n : Fin 2} (hexit : s.exits t n = some (s.cpuState u))
    (hfit : s.Fits env t) (hfit' : s.Fits env u) : (s.tbs.tb u).pageAddr 0 = (s.tbs.tb t).pageAddr 0 := by
  obtain ⟨hpage, hmode⟩ := h.exits t ht n _ hexit
  have hpage' : pageBase (s.tbs.tb u).pc = pageBase (s.tbs.tb t).pc := hpage
  have hfirst := hfit'.first
  rw [map_getPhysAddrCode, hmode, hpage', ← map_getPhysAddrCode, hfit.first] at hfirst
  exact (Option.some.inj hfirst).symm

theorem LookupOK.addJump (h : LookupOK s L) {n : Fin 2} (ht : t ∈ L.live) (hu : u ∈ L.live)
    (hone : (s.tbs.tb u).pageAddr 1 = -1)
    (hexit : s.exits t n = some (s.cpuState u)) (hfit : s.Fits env t) (hfit' : s.Fits env u) :
    ∃ ring, LookupOK { s with tbs := { s.tbs with tb := s.tbs.tb.tbAddJump t n u } } { L with ring := ring } := by
  have hcode := sameCode_tbAddJump s.tbs.tb t n u
  have hnulls : ∀ v ∉ L.live, ∀ m, (s.tbs.tb v).jmpNext m = none → (s.tbs.tb.tbAddJump t n u v).jmpNext m = none := by
    intro v hv m hnull
    have hvt : v ≠ t := fun he => hv (he ▸ ht)
    rw [tbAddJump]
    split_ifs
    · rw [jmpAt_next, jmpAt_setJmp, jmpAt_setJmp, update_of_ne (by simp),
        update_of_ne (by simp [hvt]),
        jmpAt_tbSetJmpTarget]
      exact hnull
    · exact hnull
  have hcpu : ∀ v, ({ s with tbs := { s.tbs with tb := s.tbs.tb.tbAddJump t n u } } : ExecState).cpuState v =
    s.cpuState v := by
    intro v
    rw [ExecState.cpuState, ExecState.cpuState]
    simp only [congrArg TbCode.pc (hcode.code v)]
  refine ⟨_, h.tbs.setJumps rfl hcode (h.tbs.jumps.addJump (n := n) ht hu) hnulls, fun v hv m st hst => ?_,
    fun e slot v hslot => ?_, fun v m w hchained => ?_⟩
  · rw [hcpu]
    simp only [congrArg TbCode.pc (hcode.code v)]
    exact h.exits v hv m st hst
  · obtain ⟨hlive, heq, hfit⟩ := h.cache e slot v hslot
    simp only [congrArg TbCode.pc (hcode.code v)]
    exact ⟨hlive, heq, hfit.congr (hcode.code v) (hcpu v) rfl fun _ => rfl⟩
  · rw [hcpu]
    simp only [congrArg TbCode.pageAddr (hcode.code v), congrArg TbCode.pageAddr (hcode.code w)]
    obtain ⟨hw, hmem⟩ := hchained
    simp only at hw hmem
    by_cases hnone : ((s.tbs.tb t).jmpNext n).isNone
    · rw [if_pos hnone] at hmem
      by_cases hwu : w = u
      · subst hwu
        rw [update_self, List.mem_cons] at hmem
        rcases hmem with hnew | hold
        · -- the new jump
          obtain ⟨rfl, hm⟩ := Prod.mk.inj hnew
          obtain rfl := JmpTag.next.inj hm
          exact ⟨hexit, pageAddr_of_exit h ht hexit hfit hfit', hone⟩
        · exact h.chained v m w ⟨hw, hold⟩
      · rw [update_of_ne hwu] at hmem
        exact h.chained v m w ⟨hw, hmem⟩
    · rw [if_neg hnone] at hmem
      exact h.chained v m w ⟨hw, hmem⟩

variable {tbs : TbState}

/-- A CPU enters a live block, or leaves its block. -/
theorem LookupOK.setCpus (h : LookupOK s L) {cpus : ℕ → Cpu} {cpuSingleEnv : Option ℕ} {useIcount flag : Bool}
    {physRamDirty : ℕ → BitVec 8}
    (htbs : tbs = ⟨s.tbs.tb, s.tbs.tbPhysHash, s.tbs.l1Map, physRamDirty, cpus, cpuSingleEnv, useIcount, flag⟩)
    (hcurrent : ∀ env t, (cpus env).currentTb = some t → t ∈ L.live ∨ (s.tbs.cpus env).currentTb = some t)
    (hcache : ∀ env slot t, (cpus env).tbJmpCache slot = some t → (s.tbs.cpus env).tbJmpCache slot = some t) :
    LookupOK { s with tbs } L := by
  subst htbs
  have hok := h.tbs
  refine h.frame ⟨hok.jumps, hok.placed, hok.hash, hok.mem_hash, hok.page, hok.pageNodup, hok.mem_page, hok.present,
    fun env t ht => ?_⟩ (.refl L) (fun _ _ => rfl) (fun _ _ => ⟨rfl, rfl, rfl⟩) fun env slot t hslot => ?_
  · rcases hcurrent env t ht with hlive | hold
    · exact .inl hlive
    · exact hok.current env t hold
  · have hold := hcache env slot t hslot
    exact ⟨hold, (h.cache env slot t hold).1, fun hfit => hfit.congr rfl rfl rfl fun _ => rfl⟩

/-- The jump that led to the block is chained, if its block is still there. -/
theorem chainLast_right (h : LookupOK s L) {last : Option (ℕ × Fin 2)} (hu : u ∈ L.live) (hfit : s.Fits env u)
    (hlast : ∀ t n, last = some (t, n) →
      s.tbs.tbInvalidatedFlag = true ∨ t ∈ L.live ∧ s.Fits env t ∧ s.exits t n = some (s.cpuState u)) :
    ∃ ring, LookupOK (s.chainLast env last u) { L with ring := ring } := by
  have hjump : ∃ b ring, (s.chainLast env last u).tbs =
    ({ s.tbs with tb := b, tbInvalidatedFlag := false }).setCurrentTb env (some u) ∧
      LookupOK { s with tbs := { s.tbs with tb := b } } { L with ring := ring } := by
    unfold ExecState.chainLast
    cases hflag : s.tbs.tbInvalidatedFlag with
    | true => exact ⟨_, L.ring, rfl, h⟩
    | false =>
      cases last with
      | none => exact ⟨_, L.ring, rfl, h⟩
      | some f =>
        obtain ⟨t, n⟩ := f
        by_cases hone : (s.tbs.tb u).pageAddr 1 = -1
        · rcases hlast t n rfl with hf | ⟨ht, hfit', hexit⟩
          · rw [hflag] at hf
            cases hf
          · obtain ⟨ring, hok⟩ := h.addJump ht hu hone hexit hfit' hfit
            refine ⟨_, ring, ?_, hok⟩
            simp [hone]
        · refine ⟨_, L.ring, ?_, h⟩
          simp only [Bool.false_eq_true, if_false, if_neg hone]
  obtain ⟨b, ring, htbs, hok⟩ := hjump
  refine ⟨ring, ?_⟩
  have hset := hok.setCpus htbs (fun e t ht => ?_) fun e slot t hslot => ?_
  · exact hset
  · by_cases he : e = env
    · subst he
      rw [update_self] at ht
      obtain rfl := Option.some.inj ht
      exact .inl hu
    · rw [update_of_ne he] at ht
      exact .inr ht
  · by_cases he : e = env
    · subst he
      rw [update_self] at hslot
      exact hslot
    · rw [update_of_ne he] at hslot
      exact hslot

theorem tlbFlush_right (h : LookupOK s L) (env : ℕ) (mapping : Fin 2 → TargetUlong → Option TargetUlong) :
    LookupOK (s.tlbFlush env mapping) L := by
  refine h.frame (h.tbs.setCpus rfl fun e t ht => ?_) (.refl L) (fun _ _ => rfl)
    (fun _ _ => ⟨rfl, rfl, rfl⟩) fun e slot t hslot => ?_
  · by_cases he : e = env
    · subst he
      simp at ht
    · exact h.tbs.current e t (by simpa [he] using ht)
  · by_cases he : e = env
    · subst he
      simp [ExecState.tlbFlush] at hslot
    · have hold : (s.tbs.cpus e).tbJmpCache slot = some t := by simpa [ExecState.tlbFlush, he] using hslot
      have hpage : (s.tlbFlush env mapping).codePage e = s.codePage e := by simp [ExecState.tlbFlush, he]
      exact ⟨hold, (h.cache e slot t hold).1, fun hfit => hfit.congr rfl rfl (by rw [hpage]) fun _ => by rw [hpage]⟩

/-- What the jump cache has of its blocks. -/
def cachedTbs (s : TbState) (cache : ℕ → Option ℕ) (slot : ℕ) : Option CachedTb :=
  (cache slot).map fun t => ⟨(s.tb t).pc, (s.tb t).size⟩

theorem cachedTbs_clearRun (s : TbState) (cache : ℕ → Option ℕ) (i : ℕ) :
    cachedTbs s (ExecState.clearRun cache i) = clearJmpRun (cachedTbs s cache) i := by
  funext j
  unfold cachedTbs ExecState.clearRun clearJmpRun
  split_ifs <;> rfl

theorem clearRun_some {cache : ℕ → Option ℕ} {i slot : ℕ} (h : ExecState.clearRun cache i slot = some t) :
    cache slot = some t := by
  unfold ExecState.clearRun at h
  split_ifs at h
  exact h

theorem ushiftRight_ne {a b : TargetUlong} (h : a >>> 10 ≠ b >>> 10) : pageBase a ≠ pageBase b := by
  intro heq
  rw [pageBase_congr] at heq
  refine h (eq_of_toNat_eq ?_)
  rw [toNat_ushiftRight, toNat_ushiftRight, Nat.shiftRight_eq_div_pow, Nat.shiftRight_eq_div_pow]
  exact heq

theorem codePage_tlbFlushPage (env : ℕ) (page : Fin 2 → Option TargetUlong) (mmuIdx : Fin 2) {a addr : TargetUlong}
    (ha : a ≠ pageBase addr) : (s.tlbFlushPage env addr page).codePage env mmuIdx a = s.codePage env mmuIdx a := by
  simp only [ExecState.tlbFlushPage, update_self]
  exact update_of_ne ha _ _

/-- **A page is mapped anew**: the blocks that stay in the cache have no octet on it. -/
theorem tlbFlushPage_right (h : LookupOK s L) (env : ℕ) (addr : TargetUlong) (page : Fin 2 → Option TargetUlong) :
    LookupOK (s.tlbFlushPage env addr page) L := by
  refine h.frame (h.tbs.setCpus rfl fun e t ht => ?_) (.refl L) (fun _ _ => rfl)
    (fun _ _ => ⟨rfl, rfl, rfl⟩) fun e slot t hslot => ?_
  · by_cases he : e = env
    · subst he
      simp at ht
    · exact h.tbs.current e t (by simpa [he] using ht)
  by_cases he : e = env
  · subst he
    obtain ⟨cache, hcache⟩ : ∃ cache, (s.tbs.cpus e).tbJmpCache = cache := ⟨_, rfl⟩
    have hcleared : ExecState.clearRun
      (ExecState.clearRun cache (tbJmpCacheHashPage 10 (pageBase addr - targetPageSize 10)).toNat)
        (tbJmpCacheHashPage 10 (pageBase addr)).toNat slot = some t := by
      simpa [ExecState.tlbFlushPage, hcache] using hslot
    have hold : (s.tbs.cpus e).tbJmpCache slot = some t := hcache ▸ clearRun_some (clearRun_some hcleared)
    obtain ⟨hlive, -, -⟩ := h.cache e slot t hold
    have hplaced := h.tbs.placed t hlive
    have hslots : ∀ slot' tb, cachedTbs s.tbs cache slot' = some tb → slot' = (tbJmpCacheHashFunc 10 tb.pc).toNat := by
      intro slot' tb htb
      obtain ⟨u, hu, rfl⟩ := map_eq_some_iff.1 htb
      rw [← hcache] at hu
      exact (h.cache e slot' u hu).2.1
    have hrun := congrArg (Option.map fun t => (⟨(s.tbs.tb t).pc, (s.tbs.tb t).size⟩ : CachedTb)) hcleared
    change cachedTbs s.tbs _ slot = _ at hrun
    rw [cachedTbs_clearRun, cachedTbs_clearRun] at hrun
    -- no octet of the block is on the page
    have hoctet : ∀ k < (s.tbs.tb t).size, pageBase ((s.tbs.tb t).pc + .ofNat 32 k) ≠ pageBase addr := by
      intro k hk
      have hne := not_meets_of_cleared (by decide) hslots hrun hplaced.size_le hk
      rw [← pageBase_pageBase addr]
      exact ushiftRight_ne hne
    refine ⟨hold, hlive, fun hfit => hfit.congr rfl rfl ?_ fun htwo => ?_⟩
    · exact codePage_tlbFlushPage e page _ (by simpa using hoctet 0 hplaced.size_pos)
    · -- the last octet is on the second page
      have hspan := (hplaced.second_page htwo).1
      have hne : pageBase (pageBase (s.tbs.tb t).pc + 0x400) ≠ pageBase addr := by
        have hlast := hoctet ((s.tbs.tb t).size - 1) (Nat.sub_lt hplaced.size_pos Nat.one_pos)
        have haddr : (s.tbs.tb t).pc + .ofNat 32 ((s.tbs.tb t).size - 1) =
          (s.tbs.tb t).pc + .ofNat 32 (s.tbs.tb t).size - 1 := by
          have hsize := hplaced.size_pos
          have hle := hplaced.size_le
          rw [← toNat_inj, toNat_sub, toNat_add, toNat_add, toNat_ofNat,
            toNat_ofNat]
          change _ = (2 ^ 32 - 1 + _) % 2 ^ 32
          omega
        rw [haddr] at hlast
        rcases base_last (s.tbs.tb t).pc hplaced.size_pos hplaced.size_le with ⟨hin, -⟩ | ⟨-, hnext, -⟩
        · omega
        · rw [← hnext, pageBase_pageBase]
          exact hlast
      exact codePage_tlbFlushPage e page _ hne
  · have hold : (s.tbs.cpus e).tbJmpCache slot = some t := by simpa [ExecState.tlbFlushPage, he] using hslot
    have hpage : (s.tlbFlushPage env addr page).codePage e = s.codePage e := by simp [ExecState.tlbFlushPage, he]
    exact ⟨hold, (h.cache e slot t hold).1, fun hfit => hfit.congr rfl rfl (by rw [hpage]) fun _ => by rw [hpage]⟩

/-- **The states that a run can reach.** A CPU looks a block up after it has left a block that was on the pages of its
addresses, and a jump leads to the CPU state that it has been translated for. That block is still live: a run in which
`cpu_exec` chains a block that its own store has invalidated, which `tb_find_slow` makes `tb_invalidated_flag` forget,
is none of these. -/
inductive ExecReach (c : CodeBuffer) : ExecState → Prop
  | init {s : ExecState} (hhash : ∀ h, s.tbs.tbPhysHash h = none) (hmap : ∀ i, s.tbs.l1Map i = none)
      (hidle : ∀ env, (s.tbs.cpus env).currentTb = none) (hcache : ∀ env slot, (s.tbs.cpus env).tbJmpCache slot = none)
      (hnb : s.nbTbs = 0) (hptr : s.codeGenPtr = c.codeGenBuffer) : ExecReach c s
  | round {s s' : ExecState} {r : Option ℕ} (env : ℕ) (last : Option (ℕ × Fin 2)) (cpu : TbCpuState)
      (code : Option GenCode)
      (h : ExecReach c s) (hquiet : s.Quiet) (hcode : ∀ g, code = some g → g.Ok cpu)
      (hlast : ∀ t n, last = some (t, n) → s.tbs.Live t ∧ s.Fits env t ∧ s.exits t n = some cpu)
      (hrun : Yields (s.cpuExecRound c · env last cpu code) (s', r)) : ExecReach c s'
  | gen {s s' : ExecState} {r : Option ℕ} (env : ℕ) (cpu : TbCpuState) (code : Option GenCode) (h : ExecReach c s)
      (hquiet : s.Quiet) (hcode : ∀ g, code = some g → g.Ok cpu) (hrun : s.tbGenCode c env cpu code = some (s', r)) :
      ExecReach c s'
  | free {s : ExecState} (t : ℕ) (h : ExecReach c s) (ht : ¬ s.tbs.Live t) : ExecReach c (s.tbFree t)
  | invalidate {s : ExecState} {tbs : TbState} (t : ℕ) (h : ExecReach c s) (ht : s.tbs.Live t)
      (hrun : Yields (s.tbs.tbPhysInvalidate · t (-1)) tbs) : ExecReach c { s with tbs }
  | range {s : ExecState} {tbs : TbState} {calls : List ℕ} (start last : TargetUlong) (access : Bool)
      (h : ExecReach c s)
      (henv : access → s.tbs.cpuSingleEnv.isSome)
      (hrun : Yields (s.tbs.tbInvalidatePhysPageRange · start last access) (tbs, calls)) : ExecReach c { s with tbs }
  | fast {s : ExecState} {tbs : TbState} {calls : List ℕ} (start : TargetUlong) (len : ℕ) (h : ExecReach c s)
      (henv : s.tbs.cpuSingleEnv.isSome)
      (hrun : Yields (s.tbs.tbInvalidatePhysPageFast · start len) (tbs, calls)) : ExecReach c { s with tbs }
  | interrupt {s : ExecState} {tbs : TbState} (env : ℕ) (mask : BitVec 32) (h : ExecReach c s)
      (hrun : Yields (s.tbs.cpuInterrupt · env mask) tbs) : ExecReach c { s with tbs }
  | flush {s s' : ExecState} (h : ExecReach c s) (hquiet : s.Quiet) (hrun : s.tbFlush c = some s') : ExecReach c s'
  | tlbFlush {s : ExecState} (env : ℕ) (mapping : Fin 2 → TargetUlong → Option TargetUlong) (h : ExecReach c s) :
      ExecReach c (s.tlbFlush env mapping)
  | tlbFlushPage {s : ExecState} (env : ℕ) (addr : TargetUlong) (page : Fin 2 → Option TargetUlong)
      (h : ExecReach c s) :
      ExecReach c (s.tlbFlushPage env addr page)
  /-- The other fields of the CPUs are written, and a CPU may leave its block. -/
  | cpus {s : ExecState} (cpus : ℕ → Cpu) (cpuSingleEnv : Option ℕ) (useIcount : Bool) (physRamDirty : ℕ → BitVec 8)
      (h : ExecReach c s) (hcurrent : ∀ env t, (cpus env).currentTb = some t → (s.tbs.cpus env).currentTb = some t)
      (hcache : ∀ env, (cpus env).tbJmpCache = (s.tbs.cpus env).tbJmpCache) :
      ExecReach c { s with tbs :=
        ⟨s.tbs.tb, s.tbs.tbPhysHash, s.tbs.l1Map, physRamDirty, cpus, cpuSingleEnv, useIcount,
          s.tbs.tbInvalidatedFlag⟩ }

/-- Blocks are invalidated, and jumps are unchained. -/
theorem LookupOK.kept (h : LookupOK s L) {dead : List ℕ} (hok : TbsOK tbs L') (hin : L'.Within L)
    (hkept : CachesKept s.tbs tbs dead) (hlive : ∀ u ∈ L.live, u ∉ dead → u ∈ L'.live) :
      LookupOK { s with tbs } L' := by
  refine h.frame hok hin (fun u _ => hkept.code u) (fun _ _ => ⟨rfl, rfl, rfl⟩) fun env slot u hu => ?_
  obtain ⟨hold, hdead⟩ := hkept.cache env slot u hu
  obtain ⟨hul, hslot, -⟩ := h.cache env slot u hold
  have hcpu : ({ s with tbs } : ExecState).cpuState u = s.cpuState u := by
    rw [ExecState.cpuState, ExecState.cpuState]
    simp only [congrArg TbCode.pc (hkept.code u)]
  exact ⟨hold, hlive u hul (hdead hslot), fun hfit => hfit.congr (hkept.code u) hcpu rfl fun _ => rfl⟩

theorem AllocOK.kept {live : Finset ℕ} (h : AllocOK c s live) {dead : List ℕ}
    (hkept : CachesKept s.tbs tbs dead) (hin : L'.live ⊆ live) : AllocOK c { s with tbs } L'.live :=
  h.frame (fun _ ht => hin ht) (fun t => congrArg TbCode.tcPtr (hkept.code t)) rfl rfl

theorem interrupt_right {mask : BitVec 32} {tbs tbs' : TbState} (h : TbsOK tbs L)
    (hrun : Yields (tbs.cpuInterrupt · env mask) tbs') : ∃ L', L'.live = L.live ∧ L'.Within L ∧ TbsOK tbs' L' := by
  obtain ⟨fuel, hfuel, hrun⟩ := hrun.eq (2 * L.live.card)
  -- the request is there, and the interrupt goes on
  obtain ⟨cpu, hcpu⟩ : ∃ cpu : Cpu,
    { tbs.cpus env with interruptRequest := (tbs.cpus env).interruptRequest ||| mask } = cpu :=
    ⟨_, rfl⟩
  obtain ⟨tbs₁, htbs₁⟩ : ∃ tbs₁ : TbState, { tbs with cpus := update tbs.cpus env cpu } = tbs₁ := ⟨_, rfl⟩
  have hcurrent : ∀ e, (tbs₁.cpus e).currentTb = (tbs.cpus e).currentTb := by
    intro e
    rw [← htbs₁, ← hcpu]
    by_cases he : e = env
    · subst he
      simp
    · simp [he]
  have h₁ : TbsOK tbs₁ L := by
    refine h.setCpus htbs₁.symm fun e t ht => h.current e t ?_
    rw [← hcurrent e, ← htbs₁]
    exact ht
  have hicount₁ : tbs₁.useIcount = tbs.useIcount := by rw [← htbs₁]
  simp only [cpuInterrupt, hcpu, htbs₁] at hrun
  by_cases hicount : tbs.useIcount = true
  · rw [if_pos hicount] at hrun
    split_ifs at hrun
    obtain rfl := Option.some.inj hrun
    refine ⟨L, rfl, .refl L, h.setCpus rfl fun e t ht => h.current e t ?_⟩
    by_cases he : e = env
    · subst he
      simpa [← hcpu] using ht
    · simpa [he] using ht
  · rw [if_neg hicount] at hrun
    cases hc : (tbs₁.cpus env).currentTb with
    | none =>
      rw [cpuUnlinkTb, hc] at hrun
      obtain rfl := Option.some.inj hrun
      exact ⟨L, rfl, .refl L, h₁⟩
    | some b =>
      obtain ⟨tbs₂, hrun₂, hok₂, -⟩ := cpuInterrupt_ok h₁ hc hfuel
      have hsame : tbs₁.cpuInterrupt fuel env (tbs₁.cpus env).interruptRequest = tbs₁.cpuUnlinkTb fuel env := by
        simp only [cpuInterrupt, BitVec.or_self, update_eq_self]
        exact if_neg (hicount₁ ▸ hicount)
      rw [← hsame, hrun₂] at hrun
      obtain rfl := Option.some.inj hrun
      rw [hicount₁, if_neg hicount] at hok₂
      exact ⟨L.unchain b, rfl, L.within_unchain b, hok₂⟩

theorem range_right (h : LookupOK s L) (ha : AllocOK c s L.live) {start last : TargetUlong} {access : Bool}
    (henv : access → s.tbs.cpuSingleEnv.isSome) {calls : List ℕ}
    (hrun : Yields (s.tbs.tbInvalidatePhysPageRange · start last access) (tbs, calls)) :
    ∃ L', LookupOK { s with tbs } L' ∧ AllocOK c { s with tbs } L'.live := by
  obtain ⟨fuel, hfuel, hrun⟩ := hrun.eq (2 * L.live.card)
  have honce : ∀ t ∈ L.live, ¬ HitTwice s.tbs.tb start last (pageIndex start) t := by
    intro t ht htwice
    rw [tbInvalidatePhysPageRange_twice h.tbs ht htwice access hfuel] at hrun
    cases hrun
  obtain ⟨tbs₁, hrun₁, hok₁, -, -⟩ := tbInvalidatePhysPageRange_ok h.tbs honce henv hfuel
  have hkept := range_caches hrun
  rw [hrun] at hrun₁
  obtain ⟨rfl, rfl⟩ := Prod.mk.inj (Option.some.inj hrun₁)
  have hin := TbLists.within_afterCalls (hitsOf s.tbs L start last) s.tbs.interrupted L
  refine ⟨_, h.kept hok₁ hin hkept fun u hu hdead => ?_, ha.kept hkept fun u hu => hin.live u hu⟩
  exact (afterCalls_live _).2 ⟨hu, hdead⟩

theorem tbFree_right (h : LookupOK s L) (ha : AllocOK c s L.live) (ht : t ∉ L.live) :
    LookupOK (s.tbFree t) L ∧ AllocOK c (s.tbFree t) L.live := by
  unfold ExecState.tbFree
  split_ifs with hlast
  · obtain ⟨hpos, rfl⟩ := hlast
    refine ⟨?_, ?_⟩
    · refine h.frame h.tbs (.refl L) (fun _ _ => rfl) (fun _ _ => ⟨rfl, rfl, rfl⟩) fun env slot u hu => ?_
      exact ⟨hu, (h.cache env slot u hu).1, fun hfit => hfit.congr rfl rfl rfl fun _ => rfl⟩
    · obtain ⟨-, hroom, hindex, hmono, hle, hstrict, -⟩ := ha
      have hlast := hle (s.nbTbs - 1) (by omega)
      have hbelow : ∀ u ∈ L.live, u < s.nbTbs - 1 := by
        intro u hu
        have hlt := hindex u hu
        have hne : u ≠ s.nbTbs - 1 := fun he => ht (he ▸ hu)
        omega
      refine ⟨⟨hlast.1, hlast.2.2⟩, ?_, hbelow, fun u v huv hv => ?_, fun u hu => ?_, fun u hu v huv hv => ?_,
        fun u hu => ?_⟩
      · simp only
        omega
      · simp only at hv
        exact hmono u v huv (by omega)
      · simp only at hu
        exact ⟨(hle u (by omega)).1, hmono u (s.nbTbs - 1) (by omega) (by omega), (hle u (by omega)).2.2⟩
      · simp only at hv
        exact hstrict u hu v huv (by omega)
      · exact hstrict u hu (s.nbTbs - 1) (hbelow u hu) (by omega)
  · exact ⟨h, ha⟩

theorem cpuExecRound_right (hc : CodeBuffer.Usable c) (h : LookupOK s L) (ha : AllocOK c s L.live) (hquiet : s.Quiet)
    (hcode : ∀ g, code = some g → g.Ok cpu) {last : Option (ℕ × Fin 2)}
    (hlast : ∀ t n, last = some (t, n) → t ∈ L.live ∧ s.Fits env t ∧ s.exits t n = some cpu) :
    ∃ s' r L', Yields (s.cpuExecRound c · env last cpu code) (s', r) ∧ LookupOK s' L' ∧ AllocOK c s' L'.live := by
  obtain ⟨s₁, r, L₁, ⟨N, hrun⟩, hlook, -⟩ := tbFindFast_right hc h ha hquiet env hcode
  have hround : Yields (s.cpuExecRound c · env last cpu code) (r.elim s₁ (s₁.chainLast env last), r) := by
    refine ⟨N, fun fuel hfuel => ?_⟩
    simp only [ExecState.cpuExecRound, hrun fuel hfuel, bind_eq_bind, bind_some]
    rfl
  cases r with
  | none => exact ⟨_, _, L₁, hround, hlook.lookup, hlook.alloc⟩
  | some u =>
    obtain ⟨hu, hcpu, hfit⟩ := hlook.found u rfl
    have hlast' : ∀ t n, last = some (t, n) →
        s₁.tbs.tbInvalidatedFlag = true ∨ t ∈ L₁.live ∧ s₁.Fits env t ∧ s₁.exits t n = some (s₁.cpuState u) := by
      intro t n htn
      obtain ⟨ht, hfit', hexit⟩ := hlast t n htn
      refine hlook.kept.imp_right fun hall => ?_
      obtain ⟨ht', hcode', hexits', hcpu'⟩ := hall t ht
      refine ⟨ht', hfit'.congr hcode' hcpu' (by rw [hlook.codePage]) (fun _ => by rw [hlook.codePage]), ?_⟩
      rw [hexits', hcpu]
      exact hexit
    obtain ⟨ring, hok⟩ := chainLast_right hlook.lookup hu hfit hlast'
    refine ⟨_, _, { L₁ with ring := ring }, hround, hok, hlook.alloc.frame (fun _ ht => ht) (fun t => ?_) rfl rfl⟩
    have hsame : ((s₁.chainLast env last u).tbs.tb t).toTbCode = (s₁.tbs.tb t).toTbCode := by
      unfold ExecState.chainLast
      cases hflag : s₁.tbs.tbInvalidatedFlag with
      | true => rfl
      | false =>
        cases last with
        | none => rfl
        | some f =>
          simp only [Bool.false_eq_true, if_false, setCurrentTb]
          split_ifs
          · exact (sameCode_tbAddJump _ _ _ _).code t
          · rfl
    exact congrArg TbCode.tcPtr hsame

/-- **The invariants of a run.** -/
theorem ExecReach.ok (hc : CodeBuffer.Usable c) (h : ExecReach c s) : ∃ L, LookupOK s L ∧ AllocOK c s L.live := by
  -- each step keeps the lists and the order of the code, by its own lemma
  induction h with
  | init hhash hmap hidle hcache hnb hptr =>
    refine ⟨TbLists.empty, ⟨tbsOK_empty hhash (fun i p hp => ?_) fun env t ht => ?_, fun t ht => ?_,
      fun env slot t ht => ?_,
      fun t n u hu => ?_⟩, ⟨⟨hptr.ge, hptr ▸ hc.aligned⟩, by omega, fun t ht => ?_, fun t u _ hu => ?_,
        fun t ht => ?_, fun t ht => ?_, fun t ht => ?_⟩⟩
    · simp [pageFind, hmap] at hp
    · simp [hidle] at ht
    · exact absurd ht (Finset.notMem_empty t)
    · simp [hcache] at ht
    · exact absurd hu.1 (Finset.notMem_empty u)
    · exact absurd ht (Finset.notMem_empty t)
    · omega
    · omega
    · exact absurd ht (Finset.notMem_empty t)
    · exact absurd ht (Finset.notMem_empty t)
  | round env last cpu code _ hquiet hcode hlast hrun ih =>
    obtain ⟨L, hok, ha⟩ := ih
    obtain ⟨s₁, r₁, L', ⟨N₁, hrun₁⟩, hok', ha'⟩ := cpuExecRound_right hc hok ha hquiet hcode fun t n htn =>
      ⟨(live_iff hok.tbs).1 (hlast t n htn).1, (hlast t n htn).2⟩
    obtain ⟨fuel, hfuel, hrun⟩ := hrun.eq N₁
    obtain ⟨rfl, rfl⟩ := Prod.mk.inj (Option.some.inj ((hrun₁ fuel hfuel.le).symm.trans hrun))
    exact ⟨L', hok', ha'⟩
  | gen env cpu code _ hquiet hcode hrun ih =>
    obtain ⟨L, hok, ha⟩ := ih
    obtain ⟨s₁, r₁, L', hrun₁, hlook⟩ := tbGenCode_right hc hok ha hquiet env hcode
    rw [hrun₁] at hrun
    obtain ⟨rfl, rfl⟩ := Prod.mk.inj (Option.some.inj hrun)
    exact ⟨L', hlook.lookup, hlook.alloc⟩
  | free t _ ht ih =>
    obtain ⟨L, hok, ha⟩ := ih
    exact ⟨L, tbFree_right hok ha fun hmem => ht ((live_iff hok.tbs).2 hmem)⟩
  | invalidate t _ ht hrun ih =>
    obtain ⟨L, hok, ha⟩ := ih
    obtain ⟨fuel, hfuel, hrun⟩ := hrun.eq (2 * L.live.card)
    obtain ⟨tbs₁, hrun₁, hok₁, -⟩ := tbPhysInvalidate_ok hok.tbs ((live_iff hok.tbs).1 ht) hfuel
    have hkept := tbPhysInvalidate_caches hrun
    obtain rfl := Option.some.inj (hrun₁.symm.trans hrun)
    refine ⟨L.drop t, hok.kept hok₁ (L.within_drop t) hkept fun u hu hdead => ?_,
      ha.kept hkept (Finset.erase_subset t L.live)⟩
    exact Finset.mem_erase.2 ⟨fun he => hdead (List.mem_singleton.2 he), hu⟩
  | range start last access _ henv hrun ih =>
    obtain ⟨L, hok, ha⟩ := ih
    exact range_right hok ha henv hrun
  | @fast s tbs calls start len _ henv hrun ih =>
    obtain ⟨L, hok, ha⟩ := ih
    rcases tbInvalidatePhysPageFast_cases s.tbs start len with hsame | ⟨hpass, -⟩
    · simp only [hsame] at hrun
      exact range_right hok ha (fun _ => henv) hrun
    · obtain ⟨fuel, -, hrun⟩ := hrun.eq 0
      rw [hpass] at hrun
      obtain ⟨rfl, rfl⟩ := Prod.mk.inj (Option.some.inj hrun)
      exact ⟨L, hok, ha⟩
  | interrupt env mask _ hrun ih =>
    obtain ⟨L, hok, ha⟩ := ih
    obtain ⟨L', hlive, hin, hok'⟩ := interrupt_right hok.tbs hrun
    obtain ⟨fuel, -, hrun⟩ := hrun.eq 0
    have hkept := cpuInterrupt_caches hrun
    exact ⟨L', hok.kept hok' hin hkept fun u hu _ => hlive ▸ hu, ha.kept hkept fun u hu => hin.live u hu⟩
  | flush _ hquiet hrun ih =>
    obtain ⟨L, hok, ha⟩ := ih
    obtain ⟨s₁, hrun₁, hok₁, ha₁, -⟩ := tbFlush_exec_ok hc hok ha hquiet
    obtain rfl := Option.some.inj (hrun₁.symm.trans hrun)
    exact ⟨TbLists.empty, hok₁, ha₁⟩
  | tlbFlush env mapping _ ih =>
    obtain ⟨L, hok, ha⟩ := ih
    exact ⟨L, tlbFlush_right hok env mapping, ha.frame (fun _ ht => ht) (fun _ => rfl) rfl rfl⟩
  | tlbFlushPage env addr page _ ih =>
    obtain ⟨L, hok, ha⟩ := ih
    exact ⟨L, tlbFlushPage_right hok env addr page, ha.frame (fun _ ht => ht) (fun _ => rfl) rfl rfl⟩
  | cpus cpus cpuSingleEnv useIcount physRamDirty _ hcurrent hcache ih =>
    obtain ⟨L, hok, ha⟩ := ih
    refine ⟨L, hok.setCpus rfl (fun env t ht => .inr (hcurrent env t ht)) fun env slot t ht => ?_,
      ha.frame (fun _ ht => ht) (fun _ => rfl) rfl rfl⟩
    rw [← hcache env]
    exact ht

/-- **A lookup is right, in every state that a run reaches.** It gives a live block for the CPU state, on the pages
that the addresses are mapped to at this time, wherever it has been found; without a block an address can not be read.
It translates nothing if a live block is there that fits. -/
theorem tbFindFast_ok (hc : CodeBuffer.Usable c) (h : ExecReach c s) (hquiet : s.Quiet) (env : ℕ)
    (hcode : ∀ g, code = some g → g.Ok cpu) :
    ∃ s' r, Yields (s.tbFindFast c · env cpu code) (s', r) ∧
      (∀ tb, r = some tb → s'.tbs.Live tb ∧ s'.cpuState tb = cpu ∧ s'.Fits env tb) ∧
      (r = none → s.getPhysAddrCode env cpu.mmuIdx cpu.pc = none ∨
        s.getPhysAddrCode env cpu.mmuIdx (pageBase cpu.pc + 0x400) = none ∨ code = none) ∧
      ((∃ tb, s.tbs.Live tb ∧ s.cpuState tb = cpu ∧ s.Fits env tb) → s'.nbTbs = s.nbTbs) := by
  obtain ⟨L, hok, ha⟩ := h.ok hc
  obtain ⟨s', r, L', hrun, hlook, hold⟩ := tbFindFast_right hc hok ha hquiet env hcode
  refine ⟨s', r, hrun, fun tb htb => ?_, hlook.fault, ?_⟩
  · obtain ⟨hlive, hcpu, hfit⟩ := hlook.found tb htb
    exact ⟨(live_iff hlook.lookup.tbs).2 hlive, hcpu, hfit⟩
  · rintro ⟨tb, hlive, hfit⟩
    exact hold ⟨tb, (live_iff hok.tbs).1 hlive, hfit⟩

/-- The smallest buffer, and code that takes 16 octets and jumps back to its start. -/
def smallBuffer : CodeBuffer := codeGenAlloc 0 0 0x10000

def smallCode : GenCode := ⟨16, 64, fun _ => 0xffff, fun n => if n = 0 then some ⟨0x8000, 0, 0x40⟩ else none⟩

theorem smallCode_ok : smallCode.Ok ⟨0x8000, 0, 0x40⟩ := by
  refine ⟨by decide, by decide, by decide, by decide, fun n st hst => ?_⟩
  simp only [smallCode] at hst
  split_ifs at hst
  obtain rfl := Option.some.inj hst
  exact ⟨rfl, rfl⟩

/-- Nothing is translated yet, and each page is mapped to itself. -/
def freshExec : ExecState where
  tbs := unlinked ⟨0, 0, 0, fun _ => 0, fun _ => 0⟩
  csBase _ := 0
  flags _ := 0
  exits _ _ := none
  nbTbs := 0
  codeGenPtr := 0x10000
  codePage _ _ page := some page

theorem freshExec_reach : ExecReach smallBuffer freshExec :=
  .init (fun _ => rfl) (fun _ => rfl) (fun _ => rfl) (fun _ _ => rfl) rfl rfl

theorem freshExec_quiet : freshExec.Quiet := fun _ _ ht => by simp [freshExec, unlinked] at ht

theorem smallBuffer_usable : CodeBuffer.Usable smallBuffer := CodeBuffer.usable_codeGenAlloc 0 0 (by decide)

theorem tbFindFast_ok_fresh :
    ∃ s tb, Yields (freshExec.tbFindFast smallBuffer · 0 ⟨0x8000, 0, 0x40⟩ (some smallCode)) (s, some tb) ∧
      s.tbs.Live tb ∧
      s.cpuState tb = ⟨0x8000, 0, 0x40⟩ ∧ s.Fits 0 tb := by
  have hcode : ∀ g, some smallCode = some g → g.Ok ⟨0x8000, 0, 0x40⟩ := fun g hg => Option.some.inj hg ▸ smallCode_ok
  obtain ⟨s, r, hrun, hfound, hfault, -⟩ := tbFindFast_ok smallBuffer_usable freshExec_reach freshExec_quiet 0 hcode
  cases r with
  | none =>
    -- each page is mapped
    rcases hfault rfl with hnone | hnone | hnone
    · cases hnone
    · cases hnone
    · cases hnone
  | some tb => exact ⟨s, tb, hrun, hfound tb rfl⟩

/-- The code of the block goes on to the code of the block `u`, by its jump `n`. -/
def ExecState.GoesTo (s : ExecState) (t : ℕ) (n : Fin 2) (u : ℕ) : Prop :=
  (s.tbs.tb t).jmpNext n ≠ none ∧ s.tbs.Live u ∧ (s.tbs.tb t).tbNext n = (s.tbs.tb u).tcPtr

/-- Execution gets from block to block without a lookup. -/
inductive ExecState.Goes (s : ExecState) (t : ℕ) : ℕ → Prop
  | refl : Goes s t t
  | tail {u v : ℕ} (n : Fin 2) (h : Goes s t u) (hstep : s.GoesTo u n v) : Goes s t v

/-- A jump that is chained goes to one block, which is the one to execute. -/
theorem goesTo_fits (hc : CodeBuffer.Usable c) (h : ExecReach c s) {n : Fin 2} (ht : s.tbs.Live t)
    (hgo : s.GoesTo t n u) :
    s.exits t n = some (s.cpuState u) ∧ (∀ v, s.GoesTo t n v → v = u) ∧ (s.Fits env t → s.Fits env u) := by
  obtain ⟨L, hok, ha⟩ := h.ok hc
  have hunique : ∀ v w, s.GoesTo t n v → s.GoesTo t n w → v = w := by
    rintro v w ⟨-, hv, hjump⟩ ⟨-, hw, hjump'⟩
    exact ha.tcPtr_inj ((live_iff hok.tbs).1 hv) ((live_iff hok.tbs).1 hw) (hjump.symm.trans hjump')
  rw [live_iff hok.tbs] at ht
  have hjumps := hok.tbs.jumps
  -- the jump is in the list of its target
  obtain ⟨w, hw⟩ : ∃ w, Chained L.live L.ring (t, .next n) w := by
    by_contra hnone
    rw [not_exists] at hnone
    exact hgo.1 (isNone_iff_eq_none.1 ((hjumps.lists.isNone_iff ht n).2 hnone))
  have hgoes : s.GoesTo t n w := ⟨hgo.1, (live_iff hok.tbs).2 hw.1, hjumps.target t n w hw⟩
  obtain rfl := hunique w u hgoes hgo
  obtain ⟨hexit, hpage, hone⟩ := hok.chained t n w hw
  refine ⟨hexit, fun v hv => hunique v w hv hgo, fun hfit => ⟨?_, fun hne => absurd hone hne⟩⟩
  obtain ⟨hbase, hmode⟩ := hok.exits t ht n _ hexit
  have hbase' : pageBase (s.tbs.tb w).pc = pageBase (s.tbs.tb t).pc := hbase
  rw [map_getPhysAddrCode, hmode, hbase', hpage, ← map_getPhysAddrCode]
  exact hfit.first

/-- **Chained jumps are right, in every state that a run reaches.** From a live block on the pages of its addresses
they lead to live blocks that a lookup would accept, for the CPU state that the jump leaves with; a jump that is not
chained leaves the code of its block by its own exit. -/
theorem goes_fits (hc : CodeBuffer.Usable c) (h : ExecReach c s) (ht : s.tbs.Live t) (hfit : s.Fits env t)
    (hgoes : s.Goes t u) :
    s.tbs.Live u ∧ s.Fits env u ∧
      (∀ n, (s.tbs.tb u).jmpNext n ≠ none → ∃ v, s.GoesTo u n v ∧ s.exits u n = some (s.cpuState v)) ∧
      ∀ n, (s.tbs.tb u).jmpNext n = none → (s.tbs.tb u).tbNextOffset n ≠ 0xffff →
        (s.tbs.tb u).tbNext n = (s.tbs.tb u).tcPtr + (s.tbs.tb u).tbNextOffset n := by
  obtain ⟨L, hok, -⟩ := h.ok hc
  have hlive : s.tbs.Live u ∧ s.Fits env u := by
    induction hgoes with
    | refl => exact ⟨ht, hfit⟩
    | tail n _ hstep ih => exact ⟨hstep.2.1, (goesTo_fits hc h ih.1 hstep).2.2 ih.2⟩
  have hu := (live_iff hok.tbs).1 hlive.1
  have hjumps := hok.tbs.jumps
  refine ⟨hlive.1, hlive.2, fun n hn => ?_, fun n hn => ?_⟩
  · obtain ⟨v, hv⟩ : ∃ v, Chained L.live L.ring (u, .next n) v := by
      by_contra hnone
      rw [not_exists] at hnone
      exact hn (isNone_iff_eq_none.1 ((hjumps.lists.isNone_iff hu n).2 hnone))
    exact ⟨v, ⟨hn, (live_iff hok.tbs).2 hv.1, hjumps.target u n v hv⟩, (hok.chained u n v hv).1⟩
  · refine hjumps.own u hu n fun v hv => ?_
    exact (hjumps.lists.isNone_iff hu n).1 (isNone_iff_eq_none.2 hn) v hv

theorem goes_fits_small : ∃ s t, ExecReach smallBuffer s ∧ s.tbs.Live t ∧ s.Fits 0 t ∧ ∀ u, s.Goes t u →
    s.tbs.Live u ∧ s.Fits 0 u := by
  have hcode : ∀ g, some smallCode = some g → g.Ok ⟨0x8000, 0, 0x40⟩ := fun g hg => Option.some.inj hg ▸ smallCode_ok
  obtain ⟨L, hok, ha⟩ := freshExec_reach.ok smallBuffer_usable
  obtain ⟨s, r, L', hrun, hlook⟩ := tbGenCode_right smallBuffer_usable hok ha freshExec_quiet 0 hcode
  have hreach : ExecReach smallBuffer s := .gen 0 _ _ freshExec_reach freshExec_quiet hcode hrun
  cases r with
  | none =>
    rcases hlook.fault rfl with hnone | hnone | hnone
    · cases hnone
    · cases hnone
    · cases hnone
  | some t =>
    obtain ⟨hlive, -, hfit⟩ := hlook.found t rfl
    have ht := (live_iff hlook.lookup.tbs).2 hlive
    refine ⟨s, t, hreach, ht, hfit, fun u hu => ?_⟩
    obtain ⟨hu, hfit', -⟩ := goes_fits smallBuffer_usable hreach ht hfit hu
    exact ⟨hu, hfit'⟩

end Emulator.Exec
