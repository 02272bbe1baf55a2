import Emulator.Memcheck.TlbWatch

/-!
# Which pages `invalidate_tlb_cache` comes to

`invalidate_tlb_cache` of `memcheck_util.c` goes through the indices from that of the first page to that of the last
one. An index is a page number modulo `CPU_TLB_SIZE`: where the pages run over the last index, the loop makes too few
rounds, or none at all.

* `invalidateLoop_entry`: what the loop leaves in the entry of an index;
* `invalidateTlbCache_iff`: it is right if and only if the pages that it does not come to are not in the TLB.
-/

namespace Emulator.Memcheck

open BitVec

variable {mmu : UserMmu} {te : CPUTLBEntry} {a b start : TargetUlong} {isWrite : Bool}

/-- The entry that is looked up for `a` is about its page. -/
def UserMmu.Hit (mmu : UserMmu) (a : TargetUlong) (isWrite : Bool) : Prop :=
  TlbMatches a ((mmu.tlbTable (tlbIndex a)).tag isWrite)

/-- The page of `a` meets the `len` bytes from `start` on. -/
def MeetsRange (start : TargetUlong) (len : ℕ) (a : TargetUlong) : Prop :=
  ∃ b : TargetUlong, start.toNat ≤ b.toNat ∧ b.toNat < start.toNat + len ∧ pageOf a = pageOf b

/-- The number of rounds. -/
def rounds (start stop : TargetUlong) : ℕ := tlbIndex (stop - 1) + 1 - tlbIndex start

/-- **A range is invalidated**: no lookup finds a page of it, and the entries that are about none of its pages stay as
they are. -/
structure Invalidated (mmu mmu' : UserMmu) (start : TargetUlong) (len : ℕ) : Prop where
  closed : ∀ a isWrite, MeetsRange start len a → ¬ mmu'.Hit a isWrite
  kept : ∀ i, (∀ a isWrite, tlbIndex a = i → MeetsRange start len a → ¬ TlbMatches a ((mmu.tlbTable i).tag isWrite)) →
    mmu'.tlbTable i = mmu.tlbTable i

theorem invalidateEntry_tag (te : CPUTLBEntry) (start : TargetUlong) (isWrite : Bool) :
    (invalidateEntry te start).tag isWrite =
      if TlbMatches start (te.tag isWrite) then te.tag isWrite ^^^ targetPageMask else te.tag isWrite := by
  cases isWrite <;> rfl

theorem invalidateEntry_self (h : ∀ isWrite, ¬ TlbMatches start (te.tag isWrite)) : invalidateEntry te start = te := by
  have hread : ¬ TlbMatches start te.addrRead := h false
  have hwrite : ¬ TlbMatches start te.addrWrite := h true
  rw [invalidateEntry, if_neg hread, if_neg hwrite]

/-- The tags do not match the page any more, and do not match another one of the same index. -/
theorem invalidateEntry_matches (hindex : tlbIndex a = tlbIndex start) :
    TlbMatches a ((invalidateEntry te start).tag isWrite) ↔ pageOf a ≠ pageOf start ∧
      TlbMatches a (te.tag isWrite) := by
  rw [invalidateEntry_tag]
  split_ifs with hm
  · have htag := (tlbMatches_iff.1 hm).2
    have hturned : ¬ TlbMatches a (te.tag isWrite ^^^ targetPageMask) := by
      intro hmatch
      have hbit := congrArg (BitVec.getLsbD · 10) (tlbMatches_iff.1 hmatch).2
      simp only [pageOf_getLsbD_page] at hbit
      exact turned_tag htag (by rw [hbit, getLsbD_page, hindex])
    refine iff_of_false hturned fun ⟨hne, hmatch⟩ => hne ?_
    rw [← (tlbMatches_iff.1 hmatch).2, htag]
  · refine ⟨fun hmatch => ⟨fun he => hm ?_, hmatch⟩, And.right⟩
    rw [tlbMatches_iff] at hmatch ⊢
    exact ⟨hmatch.1, hmatch.2.trans he⟩

/-- **What the loop leaves** in the entries from `index` on: the page of the round has gone. -/
theorem invalidateLoop_entry (left index : ℕ) (start : TargetUlong) (mmu : UserMmu) (i : ℕ) :
    (invalidateLoop left index start mmu).tlbTable i =
      if index ≤ i ∧ i < index + left then
        invalidateEntry (mmu.tlbTable i) (start + .ofNat 32 ((i - index) * targetPageSize))
      else mmu.tlbTable i := by
  induction left generalizing index start mmu with
  | zero => exact (if_neg (by omega)).symm
  | succ left ih =>
    rw [invalidateLoop, ih]
    by_cases hi : i = index
    · subst hi
      rw [if_neg (by omega), if_pos (by omega), setEntry_self, Nat.sub_self, Nat.zero_mul]
      simp
    · rw [setEntry_of_ne hi]
      by_cases hin : index + 1 ≤ i ∧ i < index + 1 + left
      · have hsum : start + .ofNat 32 ((i - index) * targetPageSize) =
            start + .ofNat 32 targetPageSize + .ofNat 32 ((i - (index + 1)) * targetPageSize) := by
          rw [BitVec.add_assoc, ← ofNat_add, show i - index = i - (index + 1) + 1 by omega, Nat.succ_mul,
            Nat.add_comm targetPageSize]
        rw [if_pos hin, if_pos (by omega), hsum]
      · rw [if_neg hin, if_neg (by omega)]

/-- The pages of a range, by their number from the first one on. -/
theorem meetsRange_iff {len : ℕ} (hpos : 0 < len) (hfit : start.toNat + len ≤ 2 ^ 32) :
    MeetsRange start len a ↔
      start.toNat / 1024 ≤ a.toNat / 1024 ∧ a.toNat / 1024 ≤ (start.toNat + len - 1) / 1024 := by
  have ha := a.isLt
  constructor
  · rintro ⟨b, h1, h2, hp⟩
    rw [pageOf_eq_iff] at hp
    omega
  · rintro ⟨h1, h2⟩
    by_cases hle : start.toNat ≤ a.toNat
    · by_cases hlt : a.toNat < start.toNat + len
      · exact ⟨a, hle, hlt, rfl⟩
      · have hb : (BitVec.ofNat 32 (start.toNat + len - 1)).toNat = start.toNat + len - 1 :=
          toNat_ofNat .. ▸ Nat.mod_eq_of_lt (by omega)
        refine ⟨.ofNat 32 (start.toNat + len - 1), by omega, by omega, ?_⟩
        rw [pageOf_eq_iff, hb]
        omega
    · refine ⟨start, le_rfl, by omega, ?_⟩
      rw [pageOf_eq_iff]
      omega

/-- The number of a page is the round that comes to it, if there is one. -/
theorem round_index {len : ℕ} (hpos : 0 < len) (hfit : start.toNat + len ≤ 2 ^ 32) {k : ℕ}
    (hk : k < rounds start (.ofNat 32 (start.toNat + len))) :
    start.toNat / 1024 + k ≤ (start.toNat + len - 1) / 1024 ∧ tlbIndex start + k < cpuTlbSize ∧
      (start + .ofNat 32 (k * targetPageSize)).toNat / 1024 = start.toNat / 1024 + k := by
  have hstart := start.isLt
  have hlast : (BitVec.ofNat 32 (start.toNat + len) - 1).toNat = start.toNat + len - 1 := by
    rw [toNat_sub, toNat_ofNat]
    change (2 ^ 32 - 1 + (start.toNat + len) % 2 ^ 32) % 2 ^ 32 = _
    omega
  unfold rounds at hk
  rw [tlbIndex_eq, tlbIndex_eq, hlast] at hk
  have hle : start.toNat / 1024 + k ≤ (start.toNat + len - 1) / 1024 := by omega
  refine ⟨hle, ?_, ?_⟩
  · rw [tlbIndex_eq]
    unfold cpuTlbSize
    omega
  · unfold targetPageSize
    rw [toNat_add, toNat_ofNat]
    omega

/-- The entry of an index behind the call: the loop may have come to a page of the range. -/
theorem invalidateTlbCache_entry {len : ℕ} (hpos : 0 < len) (hfit : start.toNat + len ≤ 2 ^ 32) (i : ℕ) :
    (invalidateTlbCache mmu start (.ofNat 32 (start.toNat + len))).tlbTable i = mmu.tlbTable i ∨
      ∃ k < rounds start (.ofNat 32 (start.toNat + len)), ∃ p : TargetUlong,
        p.toNat / 1024 = start.toNat / 1024 + k ∧ i = tlbIndex start + k ∧ tlbIndex p = i ∧ MeetsRange start len p ∧
        (invalidateTlbCache mmu start (.ofNat 32 (start.toNat + len))).tlbTable i =
          invalidateEntry (mmu.tlbTable i) p := by
  have hentry := invalidateLoop_entry (rounds start (.ofNat 32 (start.toNat + len))) (tlbIndex start) start mmu i
  change (invalidateTlbCache mmu start _).tlbTable i = _ at hentry
  split_ifs at hentry with hin
  · obtain ⟨k, rfl⟩ : ∃ k, i = tlbIndex start + k := ⟨i - tlbIndex start, by omega⟩
    have hk : k < rounds start (.ofNat 32 (start.toNat + len)) := by omega
    obtain ⟨hle, hlt, hpage⟩ := round_index hpos hfit hk
    rw [Nat.add_sub_cancel_left] at hentry
    refine .inr ⟨k, hk, _, hpage, rfl, ?_, (meetsRange_iff hpos hfit).2 ⟨by omega, by omega⟩, hentry⟩
    rw [tlbIndex_eq, hpage]
    rw [tlbIndex_eq] at hlt ⊢
    unfold cpuTlbSize at hlt
    omega
  · exact .inl hentry

/-- **When `invalidate_tlb_cache` is right**: no page of the range that the loop does not come to is in the TLB. -/
theorem invalidateTlbCache_iff (mmu : UserMmu) (start : TargetUlong) (len : ℕ) (hpos : 0 < len)
    (hfit : start.toNat + len ≤ 2 ^ 32) :
    Invalidated mmu (invalidateTlbCache mmu start (.ofNat 32 (start.toNat + len))) start len ↔
      ∀ a isWrite, MeetsRange start len a →
        start.toNat / 1024 + rounds start (.ofNat 32 (start.toNat + len)) ≤ a.toNat / 1024 → ¬ mmu.Hit a isWrite := by
  have hcases := fun i => @invalidateTlbCache_entry mmu start len hpos hfit i
  constructor
  · intro h a isWrite ha hbehind hhit
    refine h.closed a isWrite ha ?_
    unfold UserMmu.Hit
    rcases hcases (tlbIndex a) with hsame | ⟨k, hk, p, hpage, -, hindex, -, hentry⟩
    · rwa [hsame]
    · -- the loop comes to another page at this index
      have hne : pageOf a ≠ pageOf p := by
        rw [Ne, pageOf_eq_iff]
        omega
      rw [hentry, invalidateEntry_matches hindex.symm]
      exact ⟨hne, hhit⟩
  · intro h
    refine ⟨fun a isWrite ha hhit => ?_, fun i hi => ?_⟩
    · have hrange := (meetsRange_iff hpos hfit).1 ha
      unfold UserMmu.Hit at hhit
      by_cases hbehind : start.toNat / 1024 + rounds start (.ofNat 32 (start.toNat + len)) ≤ a.toNat / 1024
      · refine h a isWrite ha hbehind ?_
        rcases hcases (tlbIndex a) with hsame | ⟨k, -, p, -, -, hindex, -, hentry⟩
        · rwa [hsame] at hhit
        · rw [hentry, invalidateEntry_matches hindex.symm] at hhit
          exact hhit.2
      · -- the round of the page of `a`
        have hk : a.toNat / 1024 - start.toNat / 1024 < rounds start (.ofNat 32 (start.toNat + len)) := by omega
        obtain ⟨-, hlt, hpage⟩ := round_index hpos hfit hk
        have hindex : tlbIndex a = tlbIndex start + (a.toNat / 1024 - start.toNat / 1024) := by
          rw [tlbIndex_eq] at hlt ⊢
          rw [tlbIndex_eq]
          unfold cpuTlbSize at hlt
          omega
        have hsame : pageOf a =
          pageOf (start + .ofNat 32 ((a.toNat / 1024 - start.toNat / 1024) * targetPageSize)) := by
          rw [pageOf_eq_iff, hpage]
          omega
        rw [invalidateTlbCache, invalidateLoop_entry, if_pos ⟨by omega, by unfold rounds at hk; omega⟩, hindex,
          Nat.add_sub_cancel_left, invalidateEntry_matches (tlbIndex_congr hsame)] at hhit
        exact hhit.1 hsame
    · rcases hcases i with hsame | ⟨k, -, p, -, -, hindex, hp, hentry⟩
      · exact hsame
      · rw [hentry]
        exact invalidateEntry_self fun isWrite => hi p isWrite hindex hp

/-- A TLB that has the page 0 for reading. -/
def pageZeroMmu : UserMmu := userMmuInit.setEntry 0 ⟨0, -1⟩

/-- The range of two pages up to the last index is invalidated. -/
theorem invalidateTlbCache_iff_two : 0 < 2048 ∧ (260096#32).toNat + 2048 ≤ 2 ^ 32 ∧
    Invalidated pageZeroMmu (invalidateTlbCache pageZeroMmu 260096 (.ofNat 32 262144)) 260096 2048 := by
  refine ⟨by decide, by decide, (invalidateTlbCache_iff pageZeroMmu 260096 2048 (by decide) (by decide)).2 ?_⟩
  intro a isWrite ha hbehind
  have hrange := (meetsRange_iff (by decide) (by decide)).1 ha
  have hstart : BitVec.toNat (260096 : TargetUlong) = 260096 := rfl
  have hrounds : rounds 260096 (.ofNat 32 (BitVec.toNat (260096 : TargetUlong) + 2048)) = 2 := by decide
  rw [hrounds] at hbehind
  omega

/-- **Two pages over the last index**: the page 256 has the index 0, and stays in the TLB. -/
theorem invalidateTlbCache_wrapped :
    ¬ Invalidated (userMmuInit.setEntry 0 ⟨262144, -1⟩)
      (invalidateTlbCache (userMmuInit.setEntry 0 ⟨262144, -1⟩) 261120 (.ofNat 32 263168)) 261120 2048 := by
  intro h
  refine h.closed 262144 false ⟨262144, by decide, by decide, rfl⟩ ?_
  have hnone : invalidateTlbCache (userMmuInit.setEntry 0 ⟨262144, -1⟩) 261120 (.ofNat 32 263168) =
      userMmuInit.setEntry 0 ⟨262144, -1⟩ := rfl
  rw [hnone]
  exact (by decide : TlbMatches 262144 (262144 : TargetUlong))

end Emulator.Memcheck
