import Emulator.Exec.CacheFrames
import Emulator.Exec.TbFind

/-!
# What the lookups rely on

* `LookupOK`: a block in a jump cache is live, in its own slot, and on the pages that its addresses are mapped to; a
  jump that is chained goes to a live block on the page of its own block, for the CPU state that the jump leaves with.
* `AllocOK`: the blocks of the array are in the order of their code.
* `LookupOK.frame`, `LookupOK.link`: what keeps them.
* `searchChain_right`: what a search finds.
-/

namespace Emulator.Exec

open Blocks TbState List

theorem toNat_pageBase (a : TargetUlong) : (pageBase a).toNat = a.toNat / 1024 * 1024 := by
  have hsum := congrArg BitVec.toNat (and_not_add_and a 0x3ff#32)
  have hoff := toNat_pageOffset a
  have hle : (pageBase a).toNat ≤ a.toNat := by
    rw [pageBase, BitVec.toNat_and]
    exact Nat.and_le_left
  have hlt := a.isLt
  rw [BitVec.toNat_add] at hsum
  change ((pageBase a).toNat + (pageOffset a).toNat) % 2 ^ 32 = a.toNat at hsum
  omega

theorem pageBase_congr {a b : TargetUlong} : pageBase a = pageBase b ↔ a.toNat / 1024 = b.toNat / 1024 := by
  rw [← BitVec.toNat_inj, toNat_pageBase, toNat_pageBase]
  omega

theorem pageBase_pageBase (a : TargetUlong) : pageBase (pageBase a) = pageBase a := by
  rw [pageBase_congr, toNat_pageBase]
  omega

theorem toNat_base_add_offset (a b : TargetUlong) :
    (pageBase a + pageOffset b).toNat = a.toNat / 1024 * 1024 + b.toNat % 1024 := by
  have ha := a.isLt
  rw [BitVec.toNat_add, toNat_pageBase, toNat_pageOffset]
  omega

theorem pageBase_base_add_offset (a b : TargetUlong) : pageBase (pageBase a + pageOffset b) = pageBase a := by
  rw [pageBase_congr, toNat_base_add_offset]
  omega

theorem pageOffset_base_add_offset (a b : TargetUlong) : pageOffset (pageBase a + pageOffset b) = pageOffset b := by
  rw [← BitVec.toNat_inj, toNat_pageOffset, toNat_pageOffset, toNat_base_add_offset]
  omega

/-- The last octet of a block is on its first page, or on the one behind it. -/
theorem base_last (pc : TargetUlong) {size : ℕ} (hpos : 0 < size) (hle : size ≤ 1024) :
    (pageOffset pc).toNat + size ≤ 1024 ∧ pageBase (pc + .ofNat 32 size - 1) = pageBase pc ∨
    1024 < (pageOffset pc).toNat + size ∧ pageBase (pc + .ofNat 32 size - 1) = pageBase pc + 0x400 ∧
      pageBase pc ≠ pageBase pc + 0x400 := by
  have hpc := pc.isLt
  have hlast : (pc + .ofNat 32 size - 1 : TargetUlong).toNat = (pc.toNat + size - 1) % 2 ^ 32 := by
    rw [BitVec.toNat_sub, BitVec.toNat_add, BitVec.toNat_ofNat]
    change (2 ^ 32 - 1 + (pc.toNat + size % 2 ^ 32) % 2 ^ 32) % 2 ^ 32 = _
    omega
  have hnext : (pageBase pc + 0x400 : TargetUlong).toNat = (pc.toNat / 1024 * 1024 + 1024) % 2 ^ 32 := by
    rw [BitVec.toNat_add, toNat_pageBase]
    rfl
  rw [toNat_pageOffset]
  -- the page behind the last one is the first one
  by_cases hin : pc.toNat % 1024 + size ≤ 1024
  · refine .inl ⟨hin, ?_⟩
    rw [pageBase_congr, hlast]
    omega
  · refine .inr ⟨by omega, ?_, fun heq => ?_⟩
    · rw [← BitVec.toNat_inj, toNat_pageBase, hlast, hnext]
      omega
    · have := congrArg BitVec.toNat heq
      rw [toNat_pageBase, hnext] at this
      omega

/-- The block is on the hash chain from the pointer on. -/
inductive TbState.InChain (s : TbState) : Option ℕ → ℕ → Prop
  | here (tb : ℕ) : InChain s (some tb) tb
  | next {tb t : ℕ} (h : InChain s (s.tb tb).physHashNext t) : InChain s (some tb) t

/-- The block is live: it is on the hash chain of its physical address. -/
def TbState.Live (s : TbState) (t : ℕ) : Prop := s.InChain (s.tbPhysHash (tbPhysHashFunc (s.physPc t))) t

variable {s s' : ExecState} {L L' : TbLists} {c : CodeBuffer} {env t u : ℕ} {cpu : TbCpuState}

theorem inChain_iff {s : TbState} {l : List ℕ} : ∀ {k : ℕ ⊕ ℕ} {p : Option ℕ}, Linked s.hashRead .inr k l →
    s.hashRead k = some p → (s.InChain p t ↔ t ∈ l) := by
  induction l with
  | nil =>
    intro k p hl hp
    obtain rfl := Option.some.inj (hp.symm.trans hl)
    refine ⟨fun h => ?_, fun h => absurd h not_mem_nil⟩
    cases h
  | cons a l ih =>
    intro k p hl hp
    obtain rfl := Option.some.inj (hp.symm.trans hl.1)
    have hrest := ih (p := (s.tb a).physHashNext) hl.2 rfl
    rw [mem_cons, ← hrest]
    constructor
    · intro h
      cases h with
      | here => exact .inl rfl
      | next h => exact .inr h
    · rintro (rfl | h)
      · exact .here t
      · exact .next h

theorem live_iff {s : TbState} (h : TbsOK s L) : s.Live t ↔ t ∈ L.live := by
  rw [Live, inChain_iff (h.hash.linked _ trivial) rfl, h.mem_hash, and_iff_left rfl]

/-- The pages of the block are those that its addresses are mapped to, for the CPU. -/
structure ExecState.Fits (s : ExecState) (env tb : ℕ) : Prop where
  first : (s.getPhysAddrCode env (s.cpuState tb).mmuIdx (s.tbs.tb tb).pc).map pageBase = some ((s.tbs.tb tb).pageAddr 0)
  second : (s.tbs.tb tb).pageAddr 1 ≠ -1 →
    s.getPhysAddrCode env (s.cpuState tb).mmuIdx (pageBase (s.tbs.tb tb).pc + 0x400) = some ((s.tbs.tb tb).pageAddr 1)

theorem map_getPhysAddrCode (env : ℕ) (mmuIdx : Fin 2) (addr : TargetUlong) :
    (s.getPhysAddrCode env mmuIdx addr).map pageBase = (s.codePage env mmuIdx (pageBase addr)).map pageBase := by
  rw [ExecState.getPhysAddrCode, Option.map_map]
  exact congrArg (Option.map · _) (funext fun page => pageBase_base_add_offset page addr)

/-- The block is the same one, and its pages are mapped as before. -/
theorem ExecState.Fits.congr (h : s.Fits env t) (hcode : (s'.tbs.tb t).toTbCode = (s.tbs.tb t).toTbCode)
    (hcpu : s'.cpuState t = s.cpuState t)
    (hfirst : s'.codePage env (s.cpuState t).mmuIdx (pageBase (s.tbs.tb t).pc) =
      s.codePage env (s.cpuState t).mmuIdx (pageBase (s.tbs.tb t).pc))
    (hsecond : (s.tbs.tb t).pageAddr 1 ≠ -1 →
      s'.codePage env (s.cpuState t).mmuIdx (pageBase (pageBase (s.tbs.tb t).pc + 0x400)) =
        s.codePage env (s.cpuState t).mmuIdx (pageBase (pageBase (s.tbs.tb t).pc + 0x400))) : s'.Fits env t := by
  have hpc : (s'.tbs.tb t).pc = (s.tbs.tb t).pc := congrArg TbCode.pc hcode
  have hpage : (s'.tbs.tb t).pageAddr = (s.tbs.tb t).pageAddr := congrArg TbCode.pageAddr hcode
  refine ⟨?_, fun hne => ?_⟩
  · rw [hpage, hpc, hcpu, map_getPhysAddrCode, hfirst, ← map_getPhysAddrCode]
    exact h.first
  · rw [hpage] at hne ⊢
    rw [hpc, hcpu, ExecState.getPhysAddrCode, hsecond hne]
    exact h.second hne

structure LookupOK (s : ExecState) (L : TbLists) : Prop where
  tbs : TbsOK s.tbs L
  exits : ∀ t ∈ L.live, ∀ n cpu, s.exits t n = some cpu →
    pageBase cpu.pc = pageBase (s.tbs.tb t).pc ∧ cpu.mmuIdx = (s.cpuState t).mmuIdx
  cache : ∀ env slot t, (s.tbs.cpus env).tbJmpCache slot = some t →
    t ∈ L.live ∧ slot = ExecState.jmpCacheSlot (s.tbs.tb t).pc ∧ s.Fits env t
  chained : ∀ t n u, Chained L.live L.ring (t, .next n) u →
    s.exits t n = some (s.cpuState u) ∧ (s.tbs.tb u).pageAddr 0 = (s.tbs.tb t).pageAddr 0 ∧ (s.tbs.tb u).pageAddr 1 = -1

/-- The code of a block that is live does not start where the next one does, and the code pointers are aligned. -/
structure AllocOK (c : CodeBuffer) (s : ExecState) (live : Finset ℕ) : Prop where
  start : c.codeGenBuffer ≤ s.codeGenPtr ∧ s.codeGenPtr % 16 = 0
  room : s.codeGenPtr - c.codeGenBuffer ≤ c.codeGenBufferSize
  index : ∀ t ∈ live, t < s.nbTbs
  mono : ∀ t u, t ≤ u → u < s.nbTbs → (s.tbs.tb t).tcPtr ≤ (s.tbs.tb u).tcPtr
  ptr : ∀ t < s.nbTbs, c.codeGenBuffer ≤ (s.tbs.tb t).tcPtr ∧ (s.tbs.tb t).tcPtr ≤ s.codeGenPtr ∧
    (s.tbs.tb t).tcPtr % 16 = 0
  strict : ∀ t ∈ live, ∀ u, t < u → u < s.nbTbs → (s.tbs.tb t).tcPtr < (s.tbs.tb u).tcPtr
  behind : ∀ t ∈ live, (s.tbs.tb t).tcPtr < s.codeGenPtr

/-- Two live blocks have their code at two addresses. -/
theorem AllocOK.tcPtr_inj {live : Finset ℕ} (h : AllocOK c s live) (ht : t ∈ live) (hu : u ∈ live)
    (heq : (s.tbs.tb t).tcPtr = (s.tbs.tb u).tcPtr) : t = u := by
  rcases Nat.lt_trichotomy t u with hlt | rfl | hlt
  · exact absurd heq (h.strict t ht u hlt (h.index u hu)).ne
  · rfl
  · exact absurd heq (h.strict u hu t hlt (h.index t ht)).ne'

/-- The blocks are the same ones, and no more of them are live. -/
theorem AllocOK.frame {live live' : Finset ℕ} (h : AllocOK c s live) (hlive : ∀ t ∈ live', t ∈ live)
    (hptr : ∀ t, (s'.tbs.tb t).tcPtr = (s.tbs.tb t).tcPtr) (hnb : s'.nbTbs = s.nbTbs)
      (hcode : s'.codeGenPtr = s.codeGenPtr) :
    AllocOK c s' live' := by
  obtain ⟨hstart, hroom, hindex, hmono, hle, hstrict, hbehind⟩ := h
  refine ⟨?_, ?_, fun t ht => ?_, fun t u htu hu => ?_, fun t ht => ?_, fun t ht u htu hu => ?_, fun t ht => ?_⟩
  · rwa [hcode]
  · rwa [hcode]
  · rw [hnb]
    exact hindex t (hlive t ht)
  · rw [hptr, hptr]
    exact hmono t u htu (hnb ▸ hu)
  · rw [hptr, hcode]
    exact hle t (hnb ▸ ht)
  · rw [hptr, hptr]
    exact hstrict t (hlive t ht) u htu (hnb ▸ hu)
  · rw [hptr, hcode]
    exact hbehind t (hlive t ht)

/-- **Nothing becomes live**, and what stays in a cache is mapped as before. -/
theorem LookupOK.frame (h : LookupOK s L) (hok : TbsOK s'.tbs L') (hin : L'.Within L)
    (hcode : ∀ u ∈ L'.live, (s'.tbs.tb u).toTbCode = (s.tbs.tb u).toTbCode)
    (hkey : ∀ u ∈ L'.live, s'.csBase u = s.csBase u ∧ s'.flags u = s.flags u ∧ s'.exits u = s.exits u)
    (hcache : ∀ env slot u, (s'.tbs.cpus env).tbJmpCache slot = some u →
      (s.tbs.cpus env).tbJmpCache slot = some u ∧ u ∈ L'.live ∧ (s.Fits env u → s'.Fits env u)) : LookupOK s' L' := by
  have hpc : ∀ u ∈ L'.live, (s'.tbs.tb u).pc = (s.tbs.tb u).pc := fun u hu => congrArg TbCode.pc (hcode u hu)
  have hpage : ∀ u ∈ L'.live, (s'.tbs.tb u).pageAddr = (s.tbs.tb u).pageAddr :=
    fun u hu => congrArg TbCode.pageAddr (hcode u hu)
  have hcpu : ∀ u ∈ L'.live, s'.cpuState u = s.cpuState u := by
    intro u hu
    rw [ExecState.cpuState, ExecState.cpuState, hpc u hu, (hkey u hu).1, (hkey u hu).2.1]
  refine ⟨hok, fun t ht n cpu hexit => ?_, fun env slot t hslot => ?_, fun t n u hchained => ?_⟩
  · rw [(hkey t ht).2.2] at hexit
    rw [hpc t ht, hcpu t ht]
    exact h.exits t (hin.live t ht) n cpu hexit
  · obtain ⟨hold, hlive, hfits⟩ := hcache env slot t hslot
    obtain ⟨-, heq, hfit⟩ := h.cache env slot t hold
    rw [hpc t hlive]
    exact ⟨hlive, heq, hfits hfit⟩
  · obtain ⟨hu, hring⟩ := hchained
    have ht : t ∈ L'.live := (hok.jumps.lists.source u hu _ hring).1
    rw [(hkey t ht).2.2, hcpu u hu, hpage u hu, hpage t ht]
    exact h.chained t n u ⟨hin.live u hu, hin.ring u hu _ hring⟩

/-- A block that is linked keeps its address. -/
theorem TbState.LinkedBy.pc {b b' : TbState} {physPc physPage2 : TargetUlong}
    (h : LinkedBy b b' t physPc physPage2) (u : ℕ) :
    (b'.tb u).pc = (b.tb u).pc := by
  by_cases hut : u = t
  · rw [hut, congrArg TbCode.pc h.code]
  · exact congrArg TbCode.pc (h.others u hut)

theorem cpuState_congr {tbs : TbState} (hpc : ∀ u, (tbs.tb u).pc = (s.tbs.tb u).pc) (u : ℕ) :
    ({ s with tbs } : ExecState).cpuState u = s.cpuState u := by
  rw [ExecState.cpuState, ExecState.cpuState, hpc u]

/-- **A block comes in**, which is in no cache yet and whose jumps are not chained. -/
theorem LookupOK.link (h : LookupOK s L) (ht : t ∉ L.live) {tbs : TbState} {bucket : ℕ} {physPc physPage2 : TargetUlong}
    (hok : TbsOK tbs (L.insert tbs.tb t bucket)) (hby : LinkedBy s.tbs tbs t physPc physPage2)
    (hexits : ∀ n cpu, s.exits t n = some cpu →
      pageBase cpu.pc = pageBase (s.tbs.tb t).pc ∧ cpu.mmuIdx = (s.cpuState t).mmuIdx) :
    LookupOK { s with tbs } (L.insert tbs.tb t bucket) := by
  have hpc := hby.pc
  have hcpu : ∀ u, ({ s with tbs } : ExecState).cpuState u = s.cpuState u := cpuState_congr hpc
  have hne : ∀ u ∈ L.live, u ≠ t := fun u hu he => ht (he ▸ hu)
  refine ⟨hok, fun u hu n cpu hexit => ?_, fun env slot u hslot => ?_, fun a n u hchained => ?_⟩
  · rw [hpc, hcpu]
    rcases Finset.mem_insert.1 hu with rfl | hu
    · exact hexits n cpu hexit
    · exact h.exits u hu n cpu hexit
  · change (tbs.cpus env).tbJmpCache slot = some u at hslot
    rw [hby.cpus] at hslot
    obtain ⟨hlive, heq, hfit⟩ := h.cache env slot u hslot
    refine ⟨Finset.mem_insert_of_mem hlive, ?_, ?_⟩
    · rw [hpc]
      exact heq
    · exact hfit.congr (hby.others u (hne u hlive)) (hcpu u) rfl fun _ => rfl
  · -- nothing is chained to the new block yet
    obtain ⟨hu, hring⟩ := hchained
    simp only [TbLists.insert] at hu hring
    by_cases hut : u = t
    · rw [hut, Function.update_self] at hring
      exact absurd hring not_mem_nil
    · rw [Function.update_of_ne hut] at hring
      have hlive := (Finset.mem_insert.1 hu).resolve_left hut
      have ha := (h.tbs.jumps.lists.source u hlive _ hring).1
      rw [hcpu]
      simp only [congrArg TbCode.pageAddr (hby.others u hut), congrArg TbCode.pageAddr (hby.others a (hne a ha))]
      exact h.chained a n u ⟨hlive, hring⟩

/-- The block is what the search looks for. -/
structure ExecState.Matches (s : ExecState) (env : ℕ) (cpu : TbCpuState) (physPage1 : TargetUlong) (tb : ℕ) : Prop where
  state : s.cpuState tb = cpu
  first : (s.tbs.tb tb).pageAddr 0 = physPage1
  second : (s.tbs.tb tb).pageAddr 1 ≠ -1 →
    s.getPhysAddrCode env cpu.mmuIdx (pageBase cpu.pc + 0x400) = some ((s.tbs.tb tb).pageAddr 1)

/-- A search for the blocks `l` ends as it should. -/
def SearchRight (s : ExecState) (env : ℕ) (cpu : TbCpuState) (physPage1 : TargetUlong) (l : List ℕ) : TbLookup → Prop
  | .fault => s.getPhysAddrCode env cpu.mmuIdx (pageBase cpu.pc + 0x400) = none
  | .notFound => ∀ tb ∈ l, ¬ s.Matches env cpu physPage1 tb
  | .found tb => tb ∈ l ∧ s.Matches env cpu physPage1 tb

theorem SearchRight.cons {physPage1 : TargetUlong} {l : List ℕ} {r : TbLookup} (h : SearchRight s env cpu physPage1 l r)
    (hmiss : ¬ s.Matches env cpu physPage1 t) : SearchRight s env cpu physPage1 (t :: l) r := by
  cases r with
  | fault => exact h
  | notFound =>
    intro tb htb
    rcases mem_cons.1 htb with rfl | htb
    · exact hmiss
    · exact h tb htb
  | found tb => exact ⟨mem_cons_of_mem t h.1, h.2⟩

/-- **What a search finds** on a chain. -/
theorem searchChain_right (s : ExecState) (env : ℕ) (cpu : TbCpuState) (physPage1 : TargetUlong) {l : List ℕ} :
    ∀ {k : ℕ ⊕ ℕ} {p : Option ℕ}, Linked s.tbs.hashRead .inr k l → s.tbs.hashRead k = some p →
      ∃ r, SearchRight s env cpu physPage1 l r ∧ ∀ fuel, l.length < fuel →
        s.searchChain env cpu physPage1 fuel p = some r := by
  induction l with
  | nil =>
    intro k p hl hp
    obtain rfl := Option.some.inj (hp.symm.trans hl)
    refine ⟨.notFound, fun tb htb => absurd htb not_mem_nil, fun fuel hfuel => ?_⟩
    obtain ⟨m, rfl⟩ := Nat.exists_eq_succ_of_ne_zero hfuel.ne'
    rfl
  | cons tb l ih =>
    intro k p hl hp
    obtain rfl := Option.some.inj (hp.symm.trans hl.1)
    obtain ⟨r, hr, hrun⟩ := ih hl.2 (p := (s.tbs.tb tb).physHashNext) rfl
    -- the rest of the chain is searched if this block is not the one
    have hstep : ∀ fuel, (tb :: l).length < fuel → ∃ m, fuel = m + 1 ∧ l.length < m := by
      intro fuel hfuel
      rw [length_cons] at hfuel
      exact ⟨fuel - 1, by omega, by omega⟩
    by_cases hkey : s.cpuState tb = cpu ∧ (s.tbs.tb tb).pageAddr 0 = physPage1
    · by_cases hone : (s.tbs.tb tb).pageAddr 1 = -1
      · refine ⟨.found tb, ⟨mem_cons_self, hkey.1, hkey.2, fun hne => absurd hone hne⟩, fun fuel hfuel => ?_⟩
        obtain ⟨m, rfl, -⟩ := hstep fuel hfuel
        rw [ExecState.searchChain, if_pos hkey, if_neg (not_not.2 hone)]
      · cases hphys : s.getPhysAddrCode env cpu.mmuIdx (pageBase cpu.pc + 0x400) with
        | none =>
          refine ⟨.fault, hphys, fun fuel hfuel => ?_⟩
          obtain ⟨m, rfl, -⟩ := hstep fuel hfuel
          rw [ExecState.searchChain, if_pos hkey, if_pos hone, hphys]
        | some physPage2 =>
          by_cases hsecond : (s.tbs.tb tb).pageAddr 1 = physPage2
          · refine ⟨.found tb, ⟨mem_cons_self, hkey.1, hkey.2, fun _ => ?_⟩, fun fuel hfuel => ?_⟩
            · rw [hphys, hsecond]
            · obtain ⟨m, rfl, -⟩ := hstep fuel hfuel
              rw [ExecState.searchChain, if_pos hkey, if_pos hone, hphys]
              exact if_pos hsecond
          · refine ⟨r, hr.cons fun hmatch => hsecond ?_, fun fuel hfuel => ?_⟩
            · have hsome := hmatch.second hone
              rw [hphys] at hsome
              exact (Option.some.inj hsome).symm
            · obtain ⟨m, rfl, hm⟩ := hstep fuel hfuel
              rw [ExecState.searchChain, if_pos hkey, if_pos hone, hphys]
              exact (if_neg hsecond).trans (hrun m hm)
    · refine ⟨r, hr.cons fun hmatch => hkey ⟨hmatch.state, hmatch.first⟩, fun fuel hfuel => ?_⟩
      obtain ⟨m, rfl, hm⟩ := hstep fuel hfuel
      rw [ExecState.searchChain, if_neg hkey]
      exact hrun m hm

end Emulator.Exec
