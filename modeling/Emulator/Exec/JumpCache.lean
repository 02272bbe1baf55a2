import Emulator.Lib.Tlb
import Mathlib.Data.BitVec
import Mathlib.Logic.Function.Basic
import Mathlib.Tactic

/-!
# Flushing a page

`tlb_flush_page` takes one page out of the TLB of a CPU, and out of `tb_jmp_cache` all blocks that
have bytes on the page. A block is found there by a hash of its address; the flush clears the
slots of the page and of the page before it, by another hash that is for pages.

* `tbJmpCacheHashPage_congr`, `tbJmpCacheHashFunc_run`: the slots of a page are one run.
* `tlbFlushPage_purges`: nothing of the page is left.

The number of page bits is a parameter here.
-/

namespace Emulator.Exec

open BitVec

def tbJmpPageBits : ℕ := 6
def tbJmpPageSize : ℕ := 64
def tbJmpAddrMask : TargetUlong := 63
def tbJmpPageMask : TargetUlong := 4032

def nbMmuModes : ℕ := 2

section Hash

variable (targetPageBits : ℕ)

/-- `tmp`. -/
def tbJmpFold (pc : TargetUlong) : TargetUlong := pc ^^^ (pc >>> (targetPageBits - tbJmpPageBits))

def tbJmpCacheHashPage (pc : TargetUlong) : TargetUlong :=
  (tbJmpFold targetPageBits pc >>> (targetPageBits - tbJmpPageBits)) &&& tbJmpPageMask

def tbJmpCacheHashFunc (pc : TargetUlong) : TargetUlong :=
  ((tbJmpFold targetPageBits pc >>> (targetPageBits - tbJmpPageBits)) &&& tbJmpPageMask) |||
    (tbJmpFold targetPageBits pc &&& tbJmpAddrMask)

end Hash

/-- What the jump cache has of a block. -/
structure CachedTb where
  pc : TargetUlong
  size : ℕ
  deriving DecidableEq

structure CPUTLBEntry where
  addrRead : TargetUlong
  addrWrite : TargetUlong
  addrCode : TargetUlong

/-- `CPU_COMMON`, as far as the flush goes. -/
structure CPUState where
  tlbTable : ℕ → ℕ → CPUTLBEntry
  tbJmpCache : ℕ → Option CachedTb
  currentTb : Option CachedTb

section Flush

variable (targetPageBits : ℕ)

/-- `memset (&env->tb_jmp_cache[i], 0, TB_JMP_PAGE_SIZE * sizeof(TranslationBlock *))`. -/
def clearJmpRun (cache : ℕ → Option CachedTb) (i : ℕ) : ℕ → Option CachedTb :=
  fun j => if i ≤ j ∧ j < i + tbJmpPageSize then none else cache j

def tlbFlushJmpCache (env : CPUState) (addr : TargetUlong) : CPUState :=
  let i := tbJmpCacheHashPage targetPageBits (addr - targetPageSize targetPageBits)
  let env := { env with tbJmpCache := clearJmpRun env.tbJmpCache i.toNat }
  let i := tbJmpCacheHashPage targetPageBits addr
  { env with tbJmpCache := clearJmpRun env.tbJmpCache i.toNat }

/-- The test of an access that uses the tag. -/
def TagMatches (addr tag : TargetUlong) : Prop := addr = tag &&& (targetPageMask targetPageBits ||| tlbInvalidMask)

instance (addr tag : TargetUlong) : Decidable (TagMatches targetPageBits addr tag) :=
  inferInstanceAs (Decidable (_ = _))

def tlbFlushEntry (tlbEntry : CPUTLBEntry) (addr : TargetUlong) : CPUTLBEntry :=
  if TagMatches targetPageBits addr tlbEntry.addrRead ∨ TagMatches targetPageBits addr tlbEntry.addrWrite ∨
      TagMatches targetPageBits addr tlbEntry.addrCode then
    ⟨-1, -1, -1⟩
  else tlbEntry

def tlbFlushPage (env : CPUState) (addr : TargetUlong) : CPUState :=
  let env := { env with currentTb := none }
  let addr := addr &&& targetPageMask targetPageBits
  let i := tlbIndex targetPageBits addr
  let env := { env with
    tlbTable := fun mmuIdx j =>
      if mmuIdx < nbMmuModes ∧ j = i then tlbFlushEntry targetPageBits (env.tlbTable mmuIdx j) addr
      else env.tlbTable mmuIdx j }
  tlbFlushJmpCache targetPageBits env addr

end Flush

theorem tbJmpPageMask_bit (i : ℕ) (h : tbJmpPageMask.getLsbD i = true) : 6 ≤ i := by
  have hi : i < 32 := lt_of_getLsbD h
  have : ∀ i < 32, tbJmpPageMask.getLsbD i = true → 6 ≤ i := by decide
  exact this i hi h

/-- The hash for pages is one of the page. -/
theorem tbJmpCacheHashPage_congr {n : ℕ} (hn : tbJmpPageBits ≤ n) {a b : TargetUlong} (h : a >>> n = b >>> n) :
    tbJmpCacheHashPage n a = tbJmpCacheHashPage n b := by
  have hbit : ∀ j, n ≤ j → a.getLsbD j = b.getLsbD j := by
    intro j hj
    have := congrArg (BitVec.getLsbD · (j - n)) h
    simpa only [getLsbD_ushiftRight, Nat.add_sub_cancel' hj] using this
  rw [tbJmpPageBits] at hn
  refine eq_of_getLsbD_eq fun i hi => ?_
  simp only [tbJmpCacheHashPage, tbJmpFold, tbJmpPageBits, getLsbD_and, getLsbD_ushiftRight,
    getLsbD_xor]
  cases hm : tbJmpPageMask.getLsbD i with
  | false => simp
  | true =>
    have h6 := tbJmpPageMask_bit i hm
    rw [hbit (n - 6 + i) (by omega), hbit (n - 6 + (n - 6 + i)) (by omega)]

/-- The slots of a page are the run that begins at its hash. -/
theorem tbJmpCacheHashFunc_run (n : ℕ) (pc : TargetUlong) :
    (tbJmpCacheHashPage n pc).toNat ≤ (tbJmpCacheHashFunc n pc).toNat ∧
      (tbJmpCacheHashFunc n pc).toNat < (tbJmpCacheHashPage n pc).toNat + tbJmpPageSize := by
  have hadd : (tbJmpCacheHashFunc n pc).toNat =
      (tbJmpCacheHashPage n pc).toNat + (tbJmpFold n pc &&& tbJmpAddrMask).toNat := by
    have hand : tbJmpCacheHashPage n pc &&& (tbJmpFold n pc &&& tbJmpAddrMask) = 0#32 := by
      rw [tbJmpCacheHashPage, BitVec.and_assoc, ← BitVec.and_assoc tbJmpPageMask, BitVec.and_comm tbJmpPageMask,
        BitVec.and_assoc _ tbJmpPageMask, show tbJmpPageMask &&& tbJmpAddrMask = 0#32 from rfl]
      simp
    rw [← toNat_add_of_and_eq_zero hand, add_eq_or_of_and_eq_zero _ _ hand]
    rfl
  have hlow : (tbJmpFold n pc &&& tbJmpAddrMask).toNat < 64 := by
    rw [toNat_and]
    exact Nat.lt_of_le_of_lt Nat.and_le_right (by decide)
  rw [hadd, tbJmpPageSize]
  omega

/-- A block of at most a page that has an octet on the page begins there or on the page before it. -/
theorem page_of_start {n k : ℕ} {pc addr : TargetUlong} (hk : k < 2 ^ n)
    (h : (pc + .ofNat 32 k) >>> n = addr >>> n) :
    pc >>> n = addr >>> n ∨ pc >>> n = (addr - targetPageSize n) >>> n := by
  by_cases hn : 32 ≤ n
  · left
    rw [ushiftRight_eq_zero hn, ushiftRight_eq_zero hn]
  have hword : 2 ^ 32 = 2 ^ n * 2 ^ (32 - n) := by rw [← Nat.pow_add, Nat.add_sub_cancel' (by omega)]
  have hshift : ∀ x : TargetUlong, (x >>> n).toNat = x.toNat / 2 ^ n := by
    intro x
    rw [toNat_ushiftRight, Nat.shiftRight_eq_div_pow]
  have hsize : (targetPageSize n).toNat = 2 ^ n := by
    rw [targetPageSize, toNat_shiftLeft, Nat.shiftLeft_eq, toNat_ofNat]
    have : 2 ^ n < 2 ^ 32 := Nat.pow_lt_pow_right (by omega) (by omega)
    omega
  have hP : 0 < 2 ^ n := Nat.two_pow_pos n
  have hle : 2 ^ n ≤ 2 ^ 32 := Nat.pow_le_pow_right (by omega) (by omega)
  -- page numbers are taken modulo the number of pages
  have hpage : ∀ x : ℕ, x % 2 ^ 32 / 2 ^ n = x / 2 ^ n % 2 ^ (32 - n) := by
    intro x
    rw [hword, Nat.mod_mul_right_div_self]
  have hpc : pc.toNat / 2 ^ n < 2 ^ (32 - n) := by
    rw [Nat.div_lt_iff_lt_mul hP, Nat.mul_comm, ← hword]
    exact pc.isLt
  have haddr : addr.toNat / 2 ^ n < 2 ^ (32 - n) := by
    rw [Nat.div_lt_iff_lt_mul hP, Nat.mul_comm, ← hword]
    exact addr.isLt
  have hnum := congrArg BitVec.toNat h
  rw [hshift, hshift, toNat_add, toNat_ofNat, Nat.mod_eq_of_lt (Nat.lt_of_lt_of_le hk hle), hpage] at hnum
  have hprev : (addr - targetPageSize n).toNat / 2 ^ n = (addr.toNat / 2 ^ n + (2 ^ (32 - n) - 1)) % 2 ^ (32 - n) := by
    rw [toNat_sub, hsize, hpage]
    have hsub : 2 ^ 32 - 2 ^ n + addr.toNat = addr.toNat + 2 ^ n * (2 ^ (32 - n) - 1) := by
      rw [Nat.mul_sub, ← hword, Nat.mul_one]
      omega
    rw [hsub, Nat.add_mul_div_left _ _ hP]
  rw [← toNat_inj, ← toNat_inj, hshift, hshift, hshift, hprev]
  rw [Nat.add_div hP, Nat.div_eq_of_lt hk, Nat.add_zero] at hnum
  generalize 2 ^ (32 - n) = M at hnum hpc ⊢
  generalize pc.toNat / 2 ^ n = q at hnum hpc ⊢
  split_ifs at hnum with hcarry
  · right
    rw [← hnum]
    by_cases hlast : q + 1 = M
    · rw [hlast, Nat.mod_self, Nat.zero_add, Nat.mod_eq_of_lt (by omega)]
      omega
    · rw [Nat.mod_eq_of_lt (show q + 1 < M by omega), show q + 1 + (M - 1) = q + M by omega, Nat.add_mod_right,
        Nat.mod_eq_of_lt hpc]
  · left
    rw [Nat.add_zero, Nat.mod_eq_of_lt hpc] at hnum
    exact hnum

section Purge

variable (targetPageBits : ℕ)

/-- The block has an octet on the page of the address. -/
def CachedTb.Meets (tb : CachedTb) (addr : TargetUlong) : Prop :=
  ∃ k < tb.size, (tb.pc + .ofNat 32 k) &&& targetPageMask targetPageBits = addr &&& targetPageMask targetPageBits

/-- The entry is one of the page, for reading, writing or fetching. -/
def CPUTLBEntry.Matches (te : CPUTLBEntry) (page : TargetUlong) : Prop :=
  TagMatches targetPageBits page te.addrRead ∨ TagMatches targetPageBits page te.addrWrite ∨
    TagMatches targetPageBits page te.addrCode

end Purge

variable {n : ℕ} {env : CPUState} {addr : TargetUlong}

theorem clearJmpRun_some {cache : ℕ → Option CachedTb} {i slot : ℕ} {tb : CachedTb}
    (h : clearJmpRun cache i slot = some tb) : cache slot = some tb ∧ ¬ (i ≤ slot ∧ slot < i + tbJmpPageSize) := by
  unfold clearJmpRun at h
  split_ifs at h with hrun
  exact ⟨h, hrun⟩

theorem not_meets_of_cleared (hn : tbJmpPageBits ≤ n) {page : TargetUlong} {cache : ℕ → Option CachedTb}
    (hcache : ∀ slot tb, cache slot = some tb → slot = (tbJmpCacheHashFunc n tb.pc).toNat) {slot : ℕ} {tb : CachedTb}
    (h : clearJmpRun (clearJmpRun cache (tbJmpCacheHashPage n (page - targetPageSize n)).toNat)
      (tbJmpCacheHashPage n page).toNat slot = some tb) (hsize : tb.size ≤ 2 ^ n) {k : ℕ} (hk : k < tb.size) :
    (tb.pc + .ofNat 32 k) >>> n ≠ page >>> n := by
  intro hmeet
  obtain ⟨h, hpage⟩ := clearJmpRun_some h
  obtain ⟨h, hprev⟩ := clearJmpRun_some h
  have hrun := tbJmpCacheHashFunc_run n tb.pc
  rw [← hcache slot tb h] at hrun
  rcases page_of_start (Nat.lt_of_lt_of_le hk hsize) hmeet with hpc | hpc
  · rw [tbJmpCacheHashPage_congr hn hpc] at hrun
    exact hpage hrun
  · rw [tbJmpCacheHashPage_congr hn hpc] at hrun
    exact hprev hrun

/-- A flushed entry matches no page: the pages have the bit of `TLB_INVALID_MASK` clear. -/
theorem not_matches_flushed (hn : tbJmpPageBits ≤ n) (a : TargetUlong) :
    ¬ CPUTLBEntry.Matches n ⟨-1, -1, -1⟩ (a &&& targetPageMask n) := by
  have htag : ¬ TagMatches n (a &&& targetPageMask n) (-1) := by
    intro h
    have hbit := congrArg (BitVec.getLsbD · 3) h
    rw [tbJmpPageBits] at hn
    have hmask : (targetPageMask n).getLsbD 3 = false := by
      rw [targetPageMask_bit n 3 (by omega), decide_eq_false_iff_not]
      omega
    have hinv : tlbInvalidMask.getLsbD 3 = true := by decide
    have hneg : (-1 : TargetUlong).getLsbD 3 = true := by decide
    simp only [getLsbD_and, getLsbD_or, hmask, hinv, hneg] at hbit
    simp at hbit
  rintro (h | h | h) <;> exact htag h

theorem tlbFlushEntry_matches (hn : tbJmpPageBits ≤ n) (te : CPUTLBEntry) (a : TargetUlong) :
    ¬ (tlbFlushEntry n te (a &&& targetPageMask n)).Matches n (a &&& targetPageMask n) := by
  unfold tlbFlushEntry
  split_ifs with h
  · exact not_matches_flushed hn a
  · exact h

/-- **Nothing of the page is left.** No block of the jump cache has an octet on the page. In no MMU mode
the page is found in the TLB; if each entry of a mode stands at the index of its page, none is
one of the page. -/
theorem tlbFlushPage_purges (n : ℕ) (hn : tbJmpPageBits ≤ n) (env : CPUState) (addr : TargetUlong)
    (hcache : ∀ slot tb, env.tbJmpCache slot = some tb → slot = (tbJmpCacheHashFunc n tb.pc).toNat) :
    (∀ slot tb, (tlbFlushPage n env addr).tbJmpCache slot = some tb → 1 ≤ tb.size → tb.size ≤ 2 ^ n →
      ¬ tb.Meets n addr) ∧
    ∀ mmuIdx < nbMmuModes,
      ¬ ((tlbFlushPage n env addr).tlbTable mmuIdx (tlbIndex n addr)).Matches n (addr &&& targetPageMask n) ∧
      ((∀ j a, (env.tlbTable mmuIdx j).Matches n (a &&& targetPageMask n) → j = tlbIndex n a) →
        ∀ j, ¬ ((tlbFlushPage n env addr).tlbTable mmuIdx j).Matches n (addr &&& targetPageMask n)) := by
  have hmasked : (addr &&& targetPageMask n) >>> n = addr >>> n :=
    samePage_iff.1 (by rw [BitVec.and_assoc, BitVec.and_self])
  have hindex : tlbIndex n (addr &&& targetPageMask n) = tlbIndex n addr := by rw [tlbIndex, tlbIndex, hmasked]
  have htable : ∀ mmuIdx < nbMmuModes, ∀ j, (tlbFlushPage n env addr).tlbTable mmuIdx j =
      if j = tlbIndex n addr then tlbFlushEntry n (env.tlbTable mmuIdx j) (addr &&& targetPageMask n)
      else env.tlbTable mmuIdx j := by
    intro mmuIdx hmmu j
    simp only [tlbFlushPage, tlbFlushJmpCache, hindex, hmmu, true_and]
  refine ⟨fun slot tb h _ hsize => ?_, fun mmuIdx hmmu => ⟨?_, fun hplaced j => ?_⟩⟩
  · rintro ⟨k, hk, hmeet⟩
    refine not_meets_of_cleared hn hcache h hsize hk ?_
    rw [hmasked]
    exact samePage_iff.1 hmeet
  · rw [htable mmuIdx hmmu, if_pos rfl]
    exact tlbFlushEntry_matches hn _ addr
  · rw [htable mmuIdx hmmu]
    split_ifs with hj
    · exact tlbFlushEntry_matches hn _ addr
    · exact fun h => hj (hplaced j addr h)

/-- A jump cache with one block, which begins four octets before the page `0x8400`. -/
def oneBlock : CPUState where
  tlbTable _ _ := ⟨-1, -1, -1⟩
  tbJmpCache slot := if slot = (tbJmpCacheHashFunc 10 0x83fc#32).toNat then some ⟨0x83fc#32, 8⟩ else none
  currentTb := none

/-- The block of `oneBlock` has octets on the page, and it is not there any more. -/
theorem tlbFlushPage_purges_oneBlock :
    CachedTb.Meets 10 ⟨0x83fc#32, 8⟩ 0x8410#32 ∧
      ∀ slot, (tlbFlushPage 10 oneBlock 0x8410#32).tbJmpCache slot ≠ some ⟨0x83fc#32, 8⟩ := by
  have hmeets : CachedTb.Meets 10 ⟨0x83fc#32, 8⟩ 0x8410#32 := ⟨4, by decide, by decide⟩
  refine ⟨hmeets, fun slot h => ?_⟩
  refine (tlbFlushPage_purges 10 (by decide) oneBlock 0x8410#32 ?_).1 slot ⟨0x83fc#32, 8⟩ h (by decide)
    (by decide) hmeets
  intro slot tb h
  simp only [oneBlock] at h
  split_ifs at h with hslot
  rw [hslot, ← Option.some.inj h]

end Emulator.Exec
