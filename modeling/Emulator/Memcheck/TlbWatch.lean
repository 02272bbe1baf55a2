import Mathlib.Tactic
import Emulator.Memcheck.Tlb

/-!
# Heap pages stay watched

When the user-mode TLB has no matching entry for a page with a block of the process, the next
access to that page comes to a helper and is validated.

* `MmuOk`: the two tags of an entry are about one page, and are turned over together.
* `watched_run`: the heap pages stay watched in every run in which no access starts in the
  user part of a block, and no step takes one of the ways on which the tags are not turned.
-/

namespace Emulator.Memcheck

open Function
open BitVec hiding not_not or_zero

/-! ## Pages and tags -/

section

variable {a b addr tlbAddr : TargetUlong}

theorem toNat_and_high (s : ℕ) (x : BitVec 32) :
    (x &&& ~~~ (BitVec.ofNat 32 (2 ^ s - 1))).toNat = x.toNat / 2 ^ s * 2 ^ s := by
  have h : x &&& ~~~ (BitVec.ofNat 32 (2 ^ s - 1)) = (x >>> s) <<< s := by
    refine eq_of_getLsbD_eq fun i hi => ?_
    simp only [getLsbD_and, getLsbD_not, getLsbD_ofNat, Nat.testBit_two_pow_sub_one,
      getLsbD_shiftLeft, getLsbD_ushiftRight]
    by_cases his : i < s
    · simp [his]
    · simp [his, hi, Nat.add_sub_cancel' (Nat.le_of_not_lt his)]
  rw [h, toNat_shiftLeft, toNat_ushiftRight, Nat.shiftRight_eq_div_pow, Nat.shiftLeft_eq]
  exact Nat.mod_eq_of_lt ((Nat.div_mul_le_self _ _).trans_lt x.isLt)

theorem toNat_and_low (s : ℕ) (hs : s ≤ 32) (x : BitVec 32) :
    (x &&& (BitVec.ofNat 32 (2 ^ s - 1))).toNat = x.toNat % 2 ^ s := by
  have hpow : 2 ^ s - 1 < 2 ^ 32 :=
    (Nat.sub_lt (Nat.two_pow_pos s) Nat.one_pos).trans_le (Nat.pow_le_pow_right (by decide) hs)
  rw [toNat_and, toNat_ofNat, Nat.mod_eq_of_lt hpow, Nat.and_two_pow_sub_one_eq_mod]

theorem toNat_pageOf (x : TargetUlong) : (pageOf x).toNat = x.toNat / 1024 * 1024 := toNat_and_high 10 x

theorem tlbIndex_eq (x : TargetUlong) : tlbIndex x = x.toNat / 1024 % 256 := Emulator.tlbIndex_eq 10 x

theorem tlbIndex_lt (x : TargetUlong) : tlbIndex x < cpuTlbSize := Emulator.tlbIndex_lt 10 x

theorem pageOf_eq_iff : pageOf a = pageOf b ↔ a.toNat / 1024 = b.toNat / 1024 := by
  rw [← toNat_inj, toNat_pageOf, toNat_pageOf]
  omega

theorem pageOf_pageOf (a : TargetUlong) : pageOf (pageOf a) = pageOf a := by
  rw [pageOf_eq_iff, toNat_pageOf]
  omega

theorem tlbIndex_congr (h : pageOf a = pageOf b) : tlbIndex a = tlbIndex b := by
  rw [tlbIndex_eq, tlbIndex_eq, pageOf_eq_iff.1 h]

theorem pageOf_or {c : TargetUlong} (hc : pageOf c = 0#32) (x : TargetUlong) : pageOf (x ||| c) = pageOf x := by
  refine eq_of_getLsbD_eq fun i _ => ?_
  have hi := congrArg (BitVec.getLsbD · i) hc
  simp only [pageOf, getLsbD_and, getLsbD_zero] at hi
  simp only [pageOf, getLsbD_and, getLsbD_or, Bool.and_or_distrib_right, hi, Bool.or_false]

/-- The bit of the page that the index is odd or even by. -/
theorem getLsbD_page (a : TargetUlong) : a.getLsbD 10 = decide (tlbIndex a % 2 = 1) := by
  rw [tlbIndex_eq]
  change a.toNat.testBit 10 = _
  rw [Nat.testBit_eq_decide_div_mod_eq]
  congr 1
  exact propext ⟨fun h => by omega, fun h => by omega⟩

theorem pageOf_getLsbD_low (a : TargetUlong) : (pageOf a).getLsbD 3 = false := by
  unfold pageOf
  rw [getLsbD_and, show targetPageMask.getLsbD 3 = false by decide, Bool.and_false]

theorem pageOf_getLsbD_page (a : TargetUlong) : (pageOf a).getLsbD 10 = a.getLsbD 10 := by
  unfold pageOf
  rw [getLsbD_and, show targetPageMask.getLsbD 10 = true by decide, Bool.and_true]

theorem and_invalid (h : tlbAddr.getLsbD 3 = false) : tlbAddr &&& tlbInvalidMask = 0#32 := by
  refine eq_of_getLsbD_eq fun i _ => ?_
  rw [show tlbInvalidMask = BitVec.twoPow 32 3 by decide, getLsbD_and, getLsbD_twoPow]
  by_cases hi : 3 = i
  · subst hi
    rw [h, Bool.false_and]
    rfl
  · simp [hi]

/-- A tag matches the addresses of its page, if it is a valid one. -/
theorem tlbMatches_iff : TlbMatches addr tlbAddr ↔ tlbAddr.getLsbD 3 = false ∧ pageOf tlbAddr = pageOf addr := by
  have hsplit : tlbAddr &&& (targetPageMask ||| tlbInvalidMask) = pageOf tlbAddr ||| (tlbAddr &&& tlbInvalidMask) := by
    refine eq_of_getLsbD_eq fun i _ => ?_
    simp only [pageOf, getLsbD_and, getLsbD_or, Bool.and_or_distrib_left]
  unfold TlbMatches
  rw [hsplit]
  constructor
  · intro h
    have h3 := congrArg (BitVec.getLsbD · 3) h
    simp only [getLsbD_or, pageOf_getLsbD_low, Bool.false_or, getLsbD_and,
      show tlbInvalidMask.getLsbD 3 = true by decide, Bool.and_true] at h3
    rw [and_invalid h3.symm, BitVec.or_zero] at h
    exact ⟨h3.symm, h.symm⟩
  · rintro ⟨h3, hp⟩
    rw [and_invalid h3, BitVec.or_zero, hp]

end

/-! ## Entries -/

/-- The tags that are valid are about the page. -/
def Straight (page : TargetUlong) (te : CPUTLBEntry) : Prop :=
  ∀ isWrite, (te.tag isWrite).getLsbD 3 = true ∨ pageOf (te.tag isWrite) = page

/-- The tags that are valid are about pages of other indices. -/
def Turned (index : ℕ) (te : CPUTLBEntry) : Prop :=
  ∀ isWrite, (te.tag isWrite).getLsbD 3 = true ∨ (te.tag isWrite).getLsbD 10 ≠ decide (index % 2 = 1)

/-- The tags of an entry have been turned together. -/
def EntryOk (index : ℕ) (te : CPUTLBEntry) : Prop :=
  (∃ a, tlbIndex a = index ∧ Straight (pageOf a) te) ∨ Turned index te

/-- An access to the address may go past the helpers. -/
def UserMmu.Open (mmu : UserMmu) (addr : TargetUlong) : Prop :=
  ∃ isWrite, TlbMatches addr ((mmu.tlbTable (tlbIndex addr)).tag isWrite)

/-- The page has a byte of a block in it. -/
def HeapPage (map : AllocMap) (page : TargetUlong) : Prop :=
  ∃ e ∈ map.toList, ∃ a : TargetUlong, InBlock e a.toNat ∧ pageOf a = page

/-- **The heap pages are watched.** -/
def UserMmu.Watched (mmu : UserMmu) : Prop := ∀ addr, HeapPage mmu.allocMap (pageOf addr) → ¬ mmu.Open addr

/-- What holds of the TLB and the map in every run. -/
structure MmuOk (mmu : UserMmu) : Prop where
  map : AllocMapOk mmu.allocMap
  entry : ∀ index < cpuTlbSize, EntryOk index (mmu.tlbTable index)

variable {mmu mmu' : UserMmu} {te : CPUTLBEntry} {a addr : TargetUlong} {index : ℕ} {isWrite : Bool}

theorem tag_turn (te : CPUTLBEntry) (isWrite : Bool) : te.turn.tag isWrite = te.tag isWrite ^^^ targetPageMask := by
  cases isWrite <;> rfl

theorem open_congr {b : TargetUlong} (h : pageOf a = pageOf b) : mmu.Open a ↔ mmu.Open b := by
  unfold UserMmu.Open TlbMatches
  rw [h, tlbIndex_congr h]

theorem Turned.not_match (h : Turned (tlbIndex addr) te) : ¬ TlbMatches addr (te.tag isWrite) := by
  rw [tlbMatches_iff]
  rintro ⟨h3, hp⟩
  rcases h isWrite with h | h
  · rw [h3] at h
    exact Bool.noConfusion h
  · have h10 := congrArg (BitVec.getLsbD · 10) hp
    simp only [pageOf_getLsbD_page] at h10
    rw [h10, getLsbD_page] at h
    exact h rfl

theorem turned_tag {tag : TargetUlong} (h : pageOf tag = pageOf a) :
    (tag ^^^ targetPageMask).getLsbD 10 ≠ decide (tlbIndex a % 2 = 1) := by
  have h10 := congrArg (BitVec.getLsbD · 10) h
  simp only [pageOf_getLsbD_page] at h10
  rw [getLsbD_xor, show targetPageMask.getLsbD 10 = true by decide, Bool.xor_true, h10, getLsbD_page]
  simp

theorem invalid_turn {tag : TargetUlong} : (tag ^^^ targetPageMask).getLsbD 3 = tag.getLsbD 3 := by
  rw [getLsbD_xor, show targetPageMask.getLsbD 3 = false by decide, Bool.xor_false]

theorem Straight.turn (h : Straight (pageOf a) te) : Turned (tlbIndex a) te.turn := by
  intro isWrite
  rw [tag_turn, invalid_turn]
  rcases h isWrite with h | h
  · exact .inl h
  · exact .inr (turned_tag h)

/-- An entry that matches an address has the page of it in all valid tags. -/
theorem EntryOk.straight (h : EntryOk (tlbIndex addr) te) (hm : TlbMatches addr (te.tag isWrite)) :
    Straight (pageOf addr) te := by
  rcases h with ⟨a, -, hs⟩ | ht
  · obtain ⟨h3, hp⟩ := tlbMatches_iff.1 hm
    rcases hs isWrite with h | h
    · rw [h3] at h
      exact Bool.noConfusion h
    · rw [← hp, h]
      exact hs
  · exact absurd hm ht.not_match

/-! ## One entry changes -/

theorem setEntry_self (mmu : UserMmu) (index : ℕ) (te : CPUTLBEntry) : (mmu.setEntry index te).tlbTable index = te :=
  update_self ..

theorem setEntry_of_ne {i : ℕ} (h : i ≠ index) : (mmu.setEntry index te).tlbTable i = mmu.tlbTable i :=
  update_of_ne h ..

theorem open_setEntry_of_ne (h : tlbIndex addr ≠ index) : (mmu.setEntry index te).Open addr ↔ mmu.Open addr := by
  unfold UserMmu.Open
  rw [setEntry_of_ne h]

theorem MmuOk.setEntry (h : MmuOk mmu) (hte : EntryOk index te) : MmuOk (mmu.setEntry index te) := by
  refine ⟨h.map, fun i hi => ?_⟩
  by_cases he : i = index
  · subst he
    rwa [setEntry_self]
  · rw [setEntry_of_ne he]
    exact h.entry i hi

/-- An entry becomes a turned one: the pages of its index are closed. -/
theorem open_turned (ht : Turned index te) (ho : (mmu.setEntry index te).Open addr) :
    mmu.Open addr ∧ tlbIndex addr ≠ index := by
  by_cases he : tlbIndex addr = index
  · subst he
    obtain ⟨isWrite, hm⟩ := ho
    rw [setEntry_self] at hm
    exact absurd hm ht.not_match
  · exact ⟨(open_setEntry_of_ne he).1 ho, he⟩

/-- **An entry is turned** that matches an address. -/
theorem MmuOk.turn (h : MmuOk mmu) (hm : TlbMatches a ((mmu.tlbTable (tlbIndex a)).tag isWrite)) :
    MmuOk (mmu.turn (tlbIndex a)) ∧
      ∀ addr, (mmu.turn (tlbIndex a)).Open addr → mmu.Open addr ∧ tlbIndex addr ≠ tlbIndex a := by
  have ht := ((h.entry _ (tlbIndex_lt a)).straight hm).turn
  exact ⟨h.setEntry (.inr ht), fun addr ho => open_turned ht ho⟩

/-- Behind the table there is no entry. -/
theorem MmuOk.turn_behind (h : MmuOk mmu) (hi : cpuTlbSize ≤ index) :
    MmuOk (mmu.turn index) ∧ ∀ addr, (mmu.turn index).Open addr → mmu.Open addr := by
  refine ⟨⟨h.map, fun i hi' => ?_⟩, fun addr ho => ?_⟩
  · change EntryOk i ((mmu.setEntry _ _).tlbTable i)
    rw [setEntry_of_ne (by omega)]
    exact h.entry i hi'
  · have := tlbIndex_lt addr
    exact (open_setEntry_of_ne (by omega)).1 ho

/-! ## Filling an entry -/

theorem tlbMatches_pageOf (a : TargetUlong) : TlbMatches a (pageOf a) :=
  tlbMatches_iff.2 ⟨pageOf_getLsbD_low a, pageOf_pageOf a⟩

theorem tlbMatches_or {tag c : TargetUlong} (h : TlbMatches a tag) (hc : pageOf c = 0#32) (hc3 : c.getLsbD 3 = false) :
    TlbMatches a (tag ||| c) := by
  obtain ⟨h3, hp⟩ := tlbMatches_iff.1 h
  refine tlbMatches_iff.2 ⟨?_, by rw [pageOf_or hc, hp]⟩
  rw [getLsbD_or, h3, hc3, Bool.or_false]

theorem address_matches (info : PageInfo) (a : TargetUlong) : TlbMatches a (info.address (pageOf a)) := by
  have h := tlbMatches_pageOf a
  have hmmio : ∀ {tag}, TlbMatches a tag → TlbMatches a (tag ||| tlbMmio) :=
    fun ht => tlbMatches_or ht (by decide) (by decide)
  unfold PageInfo.address
  simp only
  split_ifs
  · exact hmmio (hmmio h)
  · exact hmmio h
  · exact hmmio h
  · exact h

/-- The tags of an entry that is filled. -/
def PageInfo.entry (info : PageInfo) (a : TargetUlong) : CPUTLBEntry :=
  ⟨info.addrRead (pageOf a), info.addrWrite (pageOf a)⟩

/-- The access is allowed. -/
def PageInfo.allows (info : PageInfo) (isWrite : Bool) : Bool := if isWrite then info.write else info.read

variable {info : PageInfo}

theorem entry_matches (h : info.allows isWrite = true) :
    TlbMatches a ((info.entry a).tag isWrite) := by
  have haddr := address_matches info a
  cases isWrite with
  | false =>
    change TlbMatches a (info.addrRead (pageOf a))
    unfold PageInfo.addrRead
    rwa [if_pos (show info.read = true from h)]
  | true =>
    change TlbMatches a (info.addrWrite (pageOf a))
    unfold PageInfo.addrWrite
    rw [if_pos (show info.write = true from h)]
    split
    · exact tlbMatches_or haddr (by decide) (by decide)
    · exact tlbMatches_or haddr (by decide) (by decide)
    · exact tlbMatches_or haddr (by decide) (by decide)
    · exact haddr

theorem entry_invalid (h : info.allows isWrite = false) : (info.entry a).tag isWrite = -1 := by
  cases isWrite with
  | false =>
    change info.addrRead (pageOf a) = -1
    unfold PageInfo.addrRead
    rw [if_neg (by rw [show info.read = false from h]; decide)]
  | true =>
    change info.addrWrite (pageOf a) = -1
    unfold PageInfo.addrWrite
    rw [if_neg (by rw [show info.write = false from h]; decide)]

theorem entry_straight (info : PageInfo) (a : TargetUlong) : Straight (pageOf a) (info.entry a) := by
  intro isWrite
  rcases h : info.allows isWrite with _ | _
  · left
    rw [entry_invalid h]
    decide
  · exact .inr (tlbMatches_iff.1 (entry_matches h)).2

theorem tlbSetPageExec_softmmu (mmu : UserMmu) (a : TargetUlong) (info : PageInfo) :
    tlbSetPageExec mmu (pageOf a) info true = mmu.setEntry (tlbIndex a) (info.entry a) := by
  unfold tlbSetPageExec
  rw [tlbIndex_congr (pageOf_pageOf a)]
  rfl

/-- The TLB has only been opened for some pages. -/
structure Grown (pages : TargetUlong → Prop) (mmu mmu' : UserMmu) : Prop where
  ok : MmuOk mmu'
  map : mmu'.allocMap = mmu.allocMap
  opened : ∀ addr, mmu'.Open addr → mmu.Open addr ∨ pages (pageOf addr)

variable {pages : TargetUlong → Prop}

theorem Grown.refl (h : MmuOk mmu) : Grown pages mmu mmu := ⟨h, rfl, fun _ => .inl⟩

theorem Grown.trans {mmu₁ : UserMmu} (h₁ : Grown pages mmu mmu₁) (h₂ : Grown pages mmu₁ mmu') :
    Grown pages mmu mmu' := by
  refine ⟨h₂.ok, h₂.map.trans h₁.map, fun addr ho => ?_⟩
  rcases h₂.opened addr ho with ho | hp
  · exact h₁.opened addr ho
  · exact .inr hp

theorem Grown.mono {pages' : TargetUlong → Prop} (h : Grown pages mmu mmu') (hp : ∀ p, pages p → pages' p) :
    Grown pages' mmu mmu' := ⟨h.ok, h.map, fun addr ho => (h.opened addr ho).imp_right (hp _)⟩

theorem Grown.fill (h : MmuOk mmu) (a : TargetUlong) (info : PageInfo) :
    Grown (· = pageOf a) mmu (mmu.setEntry (tlbIndex a) (info.entry a)) := by
  refine ⟨h.setEntry (.inl ⟨a, rfl, entry_straight info a⟩), rfl, fun addr ho => ?_⟩
  by_cases he : tlbIndex addr = tlbIndex a
  · obtain ⟨isWrite, hm⟩ := ho
    rw [he, setEntry_self] at hm
    obtain ⟨h3, hp⟩ := tlbMatches_iff.1 hm
    rcases entry_straight info a isWrite with hs | hs
    · rw [h3] at hs
      exact Bool.noConfusion hs
    · exact .inr (hp.symm.trans hs)
  · exact .inl ((open_setEntry_of_ne he).1 ho)

/-! ## Looking an entry up -/

/-- The entry of the address matches. -/
def UserMmu.Ready (mmu : UserMmu) (isWrite : Bool) (addr : TargetUlong) : Prop :=
  TlbMatches addr ((mmu.tlbTable (tlbIndex addr)).tag isWrite)

instance : Decidable (mmu.Ready isWrite a) := inferInstanceAs (Decidable (TlbMatches _ _))

theorem ready_congr {b : TargetUlong} (h : pageOf a = pageOf b) : mmu.Ready isWrite a ↔ mmu.Ready isWrite b := by
  unfold UserMmu.Ready TlbMatches
  rw [h, tlbIndex_congr h]

variable {table : PageTable isWrite}

theorem lookup_ready (h : mmu.Ready isWrite addr) : tlbLookup table mmu addr = .ok mmu := if_pos h

/-- The entry of the address has been looked up. -/
structure LookedUp (table : PageTable isWrite) (addr : TargetUlong) (mmu mmu' : UserMmu) : Prop where
  grown : Grown (· = pageOf addr) mmu mmu'
  ready : mmu'.Ready isWrite addr
  other : ∀ b, tlbIndex b ≠ tlbIndex addr → (mmu'.Ready isWrite b ↔ mmu.Ready isWrite b)
  entry : mmu.Ready isWrite addr ∧ mmu' = mmu ∨ ¬ mmu.Ready isWrite addr ∧
    ∃ info, table.lookup (pageOf addr) = some info ∧ mmu' = mmu.setEntry (tlbIndex addr) (info.entry addr)

/-- **What a lookup does.** -/
theorem lookup_cases (h : MmuOk mmu) (table : PageTable isWrite) (addr : TargetUlong) :
    (∃ mmu', tlbLookup table mmu addr = .ok mmu' ∧ LookedUp table addr mmu mmu') ∨
    (tlbLookup table mmu addr = .error mmu ∧ ¬ mmu.Ready isWrite addr ∧ table.lookup (pageOf addr) = none) := by
  by_cases hm : mmu.Ready isWrite addr
  · exact .inl ⟨mmu, lookup_ready hm, .refl h, hm, fun _ _ => Iff.rfl, .inl ⟨hm, rfl⟩⟩
  · have hlook : tlbLookup table mmu addr = (table.lookup (pageOf addr)).elim (.error mmu)
        fun info => .ok (tlbSetPageExec mmu (pageOf addr) info true) := by
      refine (if_neg hm).trans ?_
      cases table.lookup (pageOf addr) <;> rfl
    rcases hinfo : table.lookup (pageOf addr) with _ | info
    · right
      rw [hinfo] at hlook
      exact ⟨hlook, hm, rfl⟩
    · left
      simp only [hinfo, Option.elim_some, tlbSetPageExec_softmmu] at hlook
      refine ⟨_, hlook, .fill h addr info, ?_, fun b hb => ?_, .inr ⟨hm, info, hinfo, rfl⟩⟩
      · unfold UserMmu.Ready
        rw [setEntry_self]
        exact entry_matches (table.allows _ _ hinfo)
      · unfold UserMmu.Ready
        rw [setEntry_of_ne hb]

/-! ## The bytes of an access -/

/-- The last byte of an access. -/
def lastByte (addr : TargetUlong) (shift : Fin 4) : TargetUlong := addr + .ofNat 32 (dataSize shift) - 1

/-- The pages of an access. -/
def Accessed (addr : TargetUlong) (shift : Fin 4) (page : TargetUlong) : Prop :=
  page = pageOf addr ∨ page = pageOf (lastByte addr shift)

variable {shift : Fin 4}

theorem dataSize_range (shift : Fin 4) : 1 ≤ dataSize shift ∧ dataSize shift ≤ 8 := by
  fin_cases shift <;> decide

theorem toNat_lastByte (addr : TargetUlong) (shift : Fin 4) :
    (lastByte addr shift).toNat = (addr.toNat + dataSize shift - 1) % 2 ^ 32 := by
  have := dataSize_range shift
  unfold lastByte
  rw [toNat_sub, toNat_add, toNat_ofNat]
  simp
  omega

theorem crossesPage_iff : CrossesPage addr shift ↔ 1024 ≤ addr.toNat % 1024 + dataSize shift - 1 := by
  unfold CrossesPage targetPageMask
  rw [BitVec.not_not, show (1023 : TargetUlong) = .ofNat 32 (2 ^ 10 - 1) by rfl, toNat_and_low 10 (by decide)]
  rfl

theorem byte_accessed (addr : TargetUlong) {k : ℕ} (hk : k < dataSize shift) :
    Accessed addr shift (pageOf (addr + .ofNat 32 k)) := by
  have hs := dataSize_range shift
  have haddr : (addr + .ofNat 32 k).toNat = (addr.toNat + k) % 2 ^ 32 := by
    rw [toNat_add, toNat_ofNat, Nat.add_mod_mod]
  have hlt := addr.isLt
  unfold Accessed
  rw [pageOf_eq_iff, pageOf_eq_iff, haddr, toNat_lastByte]
  omega

theorem crosses_index (h : CrossesPage addr shift) : tlbIndex (lastByte addr shift) = (tlbIndex addr + 1) % 256 := by
  have hs := dataSize_range shift
  have hlt := addr.isLt
  rw [crossesPage_iff] at h
  rw [tlbIndex_eq, tlbIndex_eq, toNat_lastByte]
  omega

theorem not_crosses_page (h : ¬ CrossesPage addr shift) : pageOf (lastByte addr shift) = pageOf addr := by
  have hs := dataSize_range shift
  have hlt := addr.isLt
  rw [crossesPage_iff] at h
  rw [pageOf_eq_iff, toNat_lastByte]
  omega

/-- The aligned address of `slow_ld`. -/
def alignDown (addr : TargetUlong) (shift : Fin 4) : TargetUlong := addr &&& ~~~ (.ofNat 32 (dataSize shift - 1))

theorem pageOf_alignDown (addr : TargetUlong) (shift : Fin 4) : pageOf (alignDown addr shift) = pageOf addr := by
  unfold alignDown dataSize
  rw [pageOf_eq_iff, toNat_and_high]
  fin_cases shift <;> simp only [] <;> omega

theorem unaligned_iff : Unaligned addr shift ↔ addr.toNat % dataSize shift ≠ 0 := by
  have hs : shift.val ≤ 32 := by omega
  unfold Unaligned dataSize
  rw [ne_eq, ← toNat_inj, toNat_and_low _ hs]
  rfl

theorem crosses_unaligned (h : CrossesPage addr shift) : Unaligned addr shift := by
  rw [crossesPage_iff] at h
  rw [unaligned_iff]
  revert h
  unfold dataSize
  fin_cases shift <;> simp only [] <;> omega

/-- The second address of `slow_ld`. -/
def alignUp (addr : TargetUlong) (shift : Fin 4) : TargetUlong := alignDown addr shift + .ofNat 32 (dataSize shift)

theorem alignUp_eq (addr : TargetUlong) (shift : Fin 4) :
    alignUp addr shift = addr + .ofNat 32 (dataSize shift - addr.toNat % dataSize shift) := by
  have hs := dataSize_range shift
  have hdiv := Nat.div_add_mod addr.toNat (dataSize shift)
  have hmod := Nat.mod_lt addr.toNat (by omega : 0 < dataSize shift)
  have hdown : (alignDown addr shift).toNat = addr.toNat / dataSize shift * dataSize shift :=
    toNat_and_high shift.val addr
  rw [Nat.mul_comm] at hdiv
  unfold alignUp
  rw [← toNat_inj, toNat_add, toNat_add, toNat_ofNat, toNat_ofNat, hdown,
    Nat.add_mod_mod, Nat.add_mod_mod]
  congr 1
  omega

theorem next_accessed (h : Unaligned addr shift) : Accessed addr shift (pageOf (alignUp addr shift)) := by
  have hs := dataSize_range shift
  rw [unaligned_iff] at h
  rw [alignUp_eq]
  exact byte_accessed addr (by omega)

theorem crosses_next (h : CrossesPage addr shift) : pageOf (alignUp addr shift) = pageOf (lastByte addr shift) := by
  have hs := dataSize_range shift
  have hlt := addr.isLt
  have hun := unaligned_iff.1 (crosses_unaligned h)
  rw [crossesPage_iff] at h
  rw [pageOf_eq_iff, toNat_lastByte, alignUp_eq, toNat_add, toNat_ofNat, Nat.add_mod_mod]
  -- the sum is a multiple of the size, and the size divides that of a page
  revert h hun
  unfold dataSize
  fin_cases shift <;> simp only [] <;> omega

/-! ## The slow helpers -/

/-- What the slow helpers do: they open the pages of the access; and for an access that crosses a page boundary they
fault on the second page, or leave both pages ready. -/
structure SlowOk (table : PageTable isWrite) (shift : Fin 4) (slow : UserMmu → TargetUlong → Except UserMmu UserMmu) :
    Prop where
  grown : ∀ {mmu addr}, MmuOk mmu → Grown (Accessed addr shift) mmu (finalMmu (slow mmu addr))
  crossed : ∀ {mmu addr}, MmuOk mmu → mmu.Ready isWrite addr →
    tlbFlags ((mmu.tlbTable (tlbIndex addr)).tag isWrite) = 0 → CrossesPage addr shift →
    (slow mmu addr = .error mmu ∧ table.lookup (pageOf (lastByte addr shift)) = none ∧
      ¬ mmu.Ready isWrite (lastByte addr shift)) ∨
    ∃ mmu', slow mmu addr = .ok mmu' ∧ mmu'.Ready isWrite addr ∧ mmu'.Ready isWrite (lastByte addr shift)

theorem accessed_first : Accessed addr shift (pageOf addr) := .inl rfl

theorem lookup_grown (h : MmuOk mmu) (table : PageTable isWrite)
    {b : TargetUlong} (hb : Accessed addr shift (pageOf b)) :
    Grown (Accessed addr shift) mmu (finalMmu (tlbLookup table mmu b)) := by
  rcases lookup_cases h table b with ⟨mmu', hl, hg⟩ | ⟨hl, -⟩
  · rw [hl]
    refine hg.grown.mono fun p hp => ?_
    rw [hp]
    exact hb
  · rw [hl]
    exact .refl h

/-- A step that comes after another one. -/
theorem bind_grown {x : Except UserMmu UserMmu} {f : UserMmu → Except UserMmu UserMmu}
    (hx : Grown pages mmu (finalMmu x)) (hf : ∀ mmu', MmuOk mmu' → Grown pages mmu' (finalMmu (f mmu'))) :
    Grown pages mmu (finalMmu (x >>= f)) := by
  cases x with
  | error e => exact hx
  | ok mmu' => exact hx.trans (hf mmu' hx.ok)

theorem slowLd_ok (table : PageTable false) (shift : Fin 4) : SlowOk table shift (slowLd table shift) := by
  constructor
  · intro mmu addr h
    unfold slowLd
    refine bind_grown (lookup_grown h table accessed_first) fun mmu₁ h₁ => ?_
    simp only
    split_ifs with hc
    · have hun : Unaligned addr shift := by
        rcases hc with ⟨-, hun⟩ | ⟨-, hcross⟩
        · exact hun
        · exact crosses_unaligned hcross
      refine bind_grown (lookup_grown h₁ table (.inl (pageOf_alignDown addr shift))) fun mmu₂ h₂ => ?_
      exact lookup_grown h₂ table (next_accessed hun)
    · exact .refl h₁
  · intro mmu addr h hready hflags hcross
    have hready₁ : mmu.Ready false (alignDown addr shift) := (ready_congr (pageOf_alignDown addr shift)).2 hready
    have hslow : slowLd table shift mmu addr = tlbLookup table mmu (alignUp addr shift) := by
      unfold slowLd
      rw [lookup_ready hready]
      change (if _ then _ else _) = _
      rw [if_pos (.inr ⟨hflags, hcross⟩)]
      change (tlbLookup table mmu (alignDown addr shift) >>= fun mmu => tlbLookup table mmu (alignUp addr shift)) = _
      rw [lookup_ready hready₁]
      rfl
    have hpage := crosses_next hcross
    rw [hslow]
    rcases lookup_cases h table (alignUp addr shift) with ⟨mmu', hl, hlook⟩ | ⟨hl, hnot, hnone⟩
    · refine .inr ⟨mmu', hl, (hlook.other addr ?_).2 hready, (ready_congr hpage).1 hlook.ready⟩
      rw [tlbIndex_congr hpage, crosses_index hcross]
      have := tlbIndex_lt addr
      unfold cpuTlbSize at this
      omega
    · refine .inl ⟨hl, by rw [← hpage]; exact hnone, fun hr => hnot ((ready_congr hpage).2 hr)⟩

/-- A write to a page that is not dirty opens nothing and closes nothing. -/
theorem ioWrite_frame (dirties : TargetUlong → Bool) (h : MmuOk mmu) (addr : TargetUlong) :
    Grown (fun _ => False) mmu (ioWrite dirties mmu addr) ∧
      ∀ b, mmu.Ready true b → (ioWrite dirties mmu addr).Ready true b := by
  unfold ioWrite tlbSetDirty
  simp only
  split_ifs with hflags htag
  · -- the tag for writing loses its flag
    have hm : TlbMatches addr ((mmu.tlbTable (tlbIndex addr)).tag true) := by
      change TlbMatches addr (mmu.tlbTable (tlbIndex addr)).addrWrite
      rw [htag]
      exact tlbMatches_or (tlbMatches_pageOf addr) (by decide) (by decide)
    have hs := (h.entry _ (tlbIndex_lt addr)).straight hm
    have hs' : Straight (pageOf addr) { mmu.tlbTable (tlbIndex addr) with addrWrite := pageOf addr } := by
      intro isWrite
      cases isWrite with
      | false => exact hs false
      | true => exact .inr (pageOf_pageOf addr)
    refine ⟨⟨h.setEntry (.inl ⟨addr, rfl, hs'⟩), rfl, fun b ho => .inl ?_⟩, fun b hb => ?_⟩
    · by_cases he : tlbIndex b = tlbIndex addr
      · obtain ⟨isWrite, hb⟩ := ho
        rw [he, setEntry_self] at hb
        cases isWrite with
        | false => exact ⟨false, by rw [he]; exact hb⟩
        | true =>
          have hpage : pageOf b = pageOf addr := (tlbMatches_iff.1 hb).2.symm.trans (pageOf_pageOf addr)
          exact (open_congr hpage).2 ⟨true, hm⟩
      · exact (open_setEntry_of_ne he).1 ho
    · by_cases he : tlbIndex b = tlbIndex addr
      · have hpage : pageOf b = pageOf addr := by
          have := hb
          unfold UserMmu.Ready at this
          rw [he] at this
          exact (tlbMatches_iff.1 this).2.symm.trans (tlbMatches_iff.1 hm).2
        refine (ready_congr hpage).2 ?_
        unfold UserMmu.Ready
        rw [setEntry_self]
        exact tlbMatches_pageOf addr
      · unfold UserMmu.Ready at hb ⊢
        rwa [setEntry_of_ne he]
  · exact ⟨.refl h, fun _ => id⟩
  · exact ⟨.refl h, fun _ => id⟩

theorem ioWrite_grown (dirties : TargetUlong → Bool) (h : MmuOk mmu) (addr : TargetUlong) :
    Grown pages mmu (ioWrite dirties mmu addr) := (ioWrite_frame dirties h addr).1.mono fun _ => False.elim

variable {wtable : PageTable true} {dirties : TargetUlong → Bool}

theorem slowStb_grown (h : MmuOk mmu) {b : TargetUlong} (hb : Accessed addr shift (pageOf b)) :
    Grown (Accessed addr shift) mmu (finalMmu (slowStb wtable dirties mmu b)) := by
  unfold slowStb
  refine bind_grown (lookup_grown h wtable hb) fun mmu₁ h₁ => ?_
  split_ifs
  · exact ioWrite_grown dirties h₁ b
  · exact .refl h₁

theorem slowStb_ready (wtable : PageTable true) (dirties : TargetUlong → Bool) (h : MmuOk mmu)
    {b : TargetUlong} (hb : mmu.Ready true b) :
    ∃ mmu', slowStb wtable dirties mmu b = .ok mmu' ∧ MmuOk mmu' ∧ ∀ c, mmu.Ready true c → mmu'.Ready true c := by
  unfold slowStb
  rw [lookup_ready hb]
  by_cases hflags : tlbFlags (mmu.tlbTable (tlbIndex b)).addrWrite ≠ 0
  · obtain ⟨hg, hr⟩ := ioWrite_frame dirties h b
    exact ⟨_, if_pos hflags, hg.ok, hr⟩
  · exact ⟨mmu, if_neg hflags, h, fun _ => id⟩

/-- The lookup of the byte comes first. -/
theorem slowStb_looked {b : TargetUlong} (hl : tlbLookup wtable mmu b = .ok mmu') (hb : mmu'.Ready true b) :
    slowStb wtable dirties mmu b = slowStb wtable dirties mmu' b := by
  unfold slowStb
  rw [hl, lookup_ready hb]

theorem slowStBytes_grown {left : ℕ} (hleft : left ≤ dataSize shift) (h : MmuOk mmu) :
    Grown (Accessed addr shift) mmu (finalMmu (slowStBytes wtable dirties addr left mmu)) := by
  induction left generalizing mmu with
  | zero => exact .refl h
  | succ i ih =>
    unfold slowStBytes
    exact bind_grown (slowStb_grown h (byte_accessed addr hleft)) fun mmu₁ h₁ => ih (by omega) h₁

/-- With both pages ready all the bytes are stored. -/
theorem slowStBytes_ready (wtable : PageTable true) (dirties : TargetUlong → Bool)
    {left : ℕ} (hleft : left ≤ dataSize shift) (h : MmuOk mmu) (h1 : mmu.Ready true addr)
    (h2 : mmu.Ready true (lastByte addr shift)) :
    ∃ mmu', slowStBytes wtable dirties addr left mmu = .ok mmu' ∧ mmu'.Ready true addr ∧
      mmu'.Ready true (lastByte addr shift) := by
  induction left generalizing mmu with
  | zero => exact ⟨mmu, rfl, h1, h2⟩
  | succ i ih =>
    have hb : mmu.Ready true (addr + .ofNat 32 i) := by
      rcases (byte_accessed addr hleft : Accessed addr shift _) with hp | hp
      · exact (ready_congr hp).2 h1
      · exact (ready_congr hp).2 h2
    obtain ⟨mmu₁, hstb, hok, hr⟩ := slowStb_ready wtable dirties h hb
    obtain ⟨mmu', h'⟩ := ih (by omega) hok (hr _ h1) (hr _ h2)
    refine ⟨mmu', ?_, h'.2⟩
    unfold slowStBytes
    rw [hstb]
    exact h'.1

theorem lastByte_eq (addr : TargetUlong) {i : ℕ} (hi : dataSize shift = i + 1) :
    lastByte addr shift = addr + .ofNat 32 i := by
  rw [← toNat_inj, toNat_lastByte, hi, toNat_add, toNat_ofNat, Nat.add_mod_mod]
  rfl

theorem slowSt_ok (table : PageTable true) (dirties : TargetUlong → Bool) (shift : Fin 4) :
    SlowOk table shift (slowSt table dirties shift) := by
  constructor
  · intro mmu addr h
    unfold slowSt
    refine bind_grown (lookup_grown h table accessed_first) fun mmu₁ h₁ => ?_
    split_ifs
    · exact slowStBytes_grown (Nat.le_refl _) h₁
    · exact ioWrite_grown dirties h₁ addr
    · exact slowStBytes_grown (Nat.le_refl _) h₁
    · exact .refl h₁
  · intro mmu addr h hready hflags hcross
    have hslow : slowSt table dirties shift mmu addr = slowStBytes table dirties addr (dataSize shift) mmu := by
      unfold slowSt
      rw [lookup_ready hready]
      exact (if_neg (not_not.2 hflags)).trans (if_pos hcross)
    obtain ⟨i, hi⟩ : ∃ i, dataSize shift = i + 1 := ⟨dataSize shift - 1, by have := dataSize_range shift; omega⟩
    have hbyte := lastByte_eq addr hi
    have hindex : tlbIndex addr ≠ tlbIndex (lastByte addr shift) := by
      rw [crosses_index hcross]
      have := tlbIndex_lt addr
      unfold cpuTlbSize at this
      omega
    rw [hslow, hi]
    -- the last byte is stored first
    unfold slowStBytes
    rw [← hbyte]
    rcases lookup_cases h table (lastByte addr shift) with ⟨mmu₁, hl, hlook⟩ | ⟨hl, hnot, hnone⟩
    · right
      have h1 := (hlook.other addr hindex).2 hready
      obtain ⟨mmu₂, hstb, hok, hr⟩ := slowStb_ready table dirties hlook.grown.ok hlook.ready
      obtain ⟨mmu', hbytes, h'⟩ := slowStBytes_ready table dirties (by omega : i ≤ dataSize shift) hok (hr _ h1)
        (hr _ hlook.ready)
      refine ⟨mmu', ?_, h'⟩
      rw [slowStb_looked hl hlook.ready, hstb]
      exact hbytes
    · left
      unfold slowStb
      rw [hl]
      exact ⟨rfl, hnone, hnot⟩

/-! ## The blocks of a page -/

variable {map : AllocMap}

theorem toNat_lastPage {a : TargetUlong} (h : pageOf a ≠ targetPageMask) : (pageOf a).toNat + 2048 ≤ 2 ^ 32 := by
  have hne : (pageOf a).toNat ≠ targetPageMask.toNat := fun he => h (toNat_inj.1 he)
  rw [show targetPageMask.toNat = 2 ^ 32 - 1024 by decide] at hne
  have := toNat_pageOf a
  have := a.isLt
  omega

/-- A block in the pages of a buffer is found, unless the search wraps around. -/
theorem containsAllocs_of_heap (h : AllocMapOk map) {addr : TargetUlong} {size : ℕ} {page : TargetUlong}
    (hle : (pageOf addr).toNat ≤ (pageOf (addr + .ofNat 32 size - 1)).toNat)
    (htop : pageOf (addr + .ofNat 32 size - 1) ≠ targetPageMask) (hheap : HeapPage map page)
    (hpage : page = pageOf addr ∨ page = pageOf (addr + .ofNat 32 size - 1)) :
    procdescContainsAllocs map addr size = true := by
  have hfit := toNat_lastPage htop
  obtain ⟨e, he, a, ha, rfl⟩ := hheap
  have h3 := toNat_pageOf a
  have hpage' : (pageOf a).toNat = (pageOf addr).toNat ∨
      (pageOf a).toNat = (pageOf (addr + .ofNat 32 size - 1)).toNat :=
    hpage.imp (congrArg _) (congrArg _)
  unfold procdescContainsAllocs
  simp only
  generalize pageOf (addr + .ofNat 32 size - 1) = endPage at *
  generalize pageOf addr = startPage at *
  have hsize : (endPage - startPage + .ofNat 32 targetPageSize + 1).toNat = endPage.toNat - startPage.toNat + 1025 := by
    unfold targetPageSize
    rw [toNat_add, toNat_add, toNat_sub]
    simp
    omega
  rw [hsize]
  obtain ⟨bufSize, hbuf⟩ : ∃ bufSize, bufSize = endPage.toNat - startPage.toNat + 1025 := ⟨_, rfl⟩
  rw [← hbuf]
  have hproper : ProperBlock (searchedBlock startPage.toNat bufSize) := searchedBlock_proper (by omega) (by omega)
  rw [Option.isSome_iff_ne_none, ne_eq, show allocmapFind map _ _ = none ↔ _ from h.find_none_iff hproper]
  intro hnone
  refine hnone e he ⟨a.toNat, inBlock_searched.2 ?_, ha⟩
  omega

/-! ## Accesses -/

/-- An access to the page is not one to a device, and for writing the page is dirty. -/
def PageInfo.Plain (info : PageInfo) (isWrite : Bool) : Prop :=
  info.watched = false ∧ if isWrite then info.kind = .ram true else info.kind ≠ .io

/-- An access to a heap page that leaves it watched:
* it does not come to a page with flags in its tag;
* it does not start in the user part of the block that it meets;
* it does not fault on its second page, if the first one is a heap page;
* its second page is not a heap page of the first entry, if the first one is of the last entry;
* it is not at the end of the address space, where the search for blocks wraps around. -/
structure AccessFine (table : PageTable isWrite) (shift : Fin 4) (mmu : UserMmu) (addr : TargetUlong) : Prop where
  ready : mmu.Ready isWrite addr → tlbFlags ((mmu.tlbTable (tlbIndex addr)).tag isWrite) = 0
  plain : ¬ mmu.Ready isWrite addr → ∀ info, table.lookup (pageOf addr) = some info → info.Plain isWrite
  outside : ∀ e, allocmapFind mmu.allocMap addr.toNat (dataSize shift) = some e →
    addr.toNat < mallocdescGetUserPtr e.mallocDesc ∨ mallocdescGetUserAllocEnd e.mallocDesc ≤ addr.toNat
  second : HeapPage mmu.allocMap (pageOf addr) → CrossesPage addr shift →
    mmu.Ready isWrite (lastByte addr shift) ∨ table.lookup (pageOf (lastByte addr shift)) ≠ none
  wrap : CrossesPage addr shift → tlbIndex addr = 255 → ¬ HeapPage mmu.allocMap (pageOf (lastByte addr shift))
  top : pageOf addr ≠ targetPageMask ∧ pageOf (lastByte addr shift) ≠ targetPageMask

theorem tlbFlags_pageOf (a : TargetUlong) : tlbFlags (pageOf a) = 0 := by
  unfold tlbFlags pageOf
  refine eq_of_getLsbD_eq fun i _ => ?_
  rw [getLsbD_and, getLsbD_and, getLsbD_not]
  cases a.getLsbD i <;> cases targetPageMask.getLsbD i <;> simp

theorem plain_flags (h : info.Plain isWrite) (ha : info.allows isWrite = true) :
    tlbFlags ((info.entry a).tag isWrite) = 0 := by
  obtain ⟨hw, hk⟩ := h
  cases isWrite with
  | false =>
    have haddr : info.address (pageOf a) = pageOf a := by
      unfold PageInfo.address
      simp only
      rw [if_neg (by rw [hw]; decide), if_neg hk]
    change tlbFlags (info.addrRead (pageOf a)) = 0
    unfold PageInfo.addrRead
    rw [if_pos (show info.read = true from ha), haddr, tlbFlags_pageOf]
  | true =>
    have hkind : info.kind = .ram true := hk
    have haddr : info.address (pageOf a) = pageOf a := by
      unfold PageInfo.address
      simp only
      rw [if_neg (by rw [hw]; decide), if_neg (by rw [hkind]; decide)]
    change tlbFlags (info.addrWrite (pageOf a)) = 0
    unfold PageInfo.addrWrite
    rw [if_pos (show info.write = true from ha), hkind]
    change tlbFlags (info.address (pageOf a)) = 0
    rw [haddr, tlbFlags_pageOf]

/-- An access that meets a block but does not start in its user part is a violation. -/
theorem validation_violation {e : MallocDescEx} (hfind : allocmapFind map addr.toNat (dataSize shift) = some e)
    (hout : addr.toNat < mallocdescGetUserPtr e.mallocDesc ∨ mallocdescGetUserAllocEnd e.mallocDesc ≤ addr.toNat)
    (htop : pageOf addr ≠ targetPageMask) : memcheckCommonAccessValidation map addr (dataSize shift) = -1 := by
  have hs := dataSize_range shift
  have h1 := toNat_lastPage htop
  rw [toNat_pageOf] at h1
  unfold memcheckCommonAccessValidation
  rw [hfind]
  simp only
  by_cases hprefix : addr.toNat < mallocdescGetUserPtr e.mallocDesc
  · rw [if_pos hprefix]
  · -- the access starts behind the user part
    have hend := hout.resolve_left hprefix
    have hsum : (addr + .ofNat 32 (dataSize shift)).toNat = addr.toNat + dataSize shift := by
      rw [toNat_add, toNat_ofNat]
      omega
    have hend' : (BitVec.ofNat 32 (mallocdescGetUserAllocEnd e.mallocDesc)).toNat =
        mallocdescGetUserAllocEnd e.mallocDesc := by
      rw [toNat_ofNat]
      omega
    rw [if_neg hprefix, if_neg, if_neg]
    · rw [toNat_sub, hsum, hend']
      omega
    · rw [le_def, hsum, hend']
      omega

/-- **The access is one that memcheck wants to see again.** -/
theorem validate_of_fine (h : AllocMapOk map) (hout : ∀ e, allocmapFind map addr.toNat (dataSize shift) = some e →
      addr.toNat < mallocdescGetUserPtr e.mallocDesc ∨ mallocdescGetUserAllocEnd e.mallocDesc ≤ addr.toNat)
    (htop : pageOf addr ≠ targetPageMask ∧ pageOf (lastByte addr shift) ≠ targetPageMask) {page : TargetUlong}
    (hheap : HeapPage map page) (hpage : Accessed addr shift page) :
    memcheckValidate map addr (dataSize shift) = true := by
  have hs := dataSize_range shift
  have h1 := toNat_lastPage htop.1
  have h2 := toNat_pageOf addr
  have h3 := toNat_pageOf (lastByte addr shift)
  rw [toNat_lastByte] at h3
  unfold memcheckValidate
  rcases hfind : allocmapFind map addr.toNat (dataSize shift) with _ | e
  · have hres : memcheckCommonAccessValidation map addr (dataSize shift) = 1 := by
      unfold memcheckCommonAccessValidation
      rw [hfind]
    simp only [hres]
    rw [if_neg (by decide), if_pos (by decide)]
    refine containsAllocs_of_heap h ?_ htop.2 hheap hpage
    change (pageOf addr).toNat ≤ (pageOf (lastByte addr shift)).toNat
    omega
  · simp only [validation_violation hfind (hout e hfind) htop.1, if_true]

/-- Both entries of an access that crosses a page boundary are turned. -/
theorem MmuOk.turn_both (h : MmuOk mmu) (hcross : CrossesPage addr shift) (h1 : mmu.Ready isWrite addr)
    (h2 : mmu.Ready isWrite (lastByte addr shift)) :
    MmuOk ((mmu.turn (tlbIndex addr)).turn (tlbIndex addr + 1)) ∧
      ∀ b, ((mmu.turn (tlbIndex addr)).turn (tlbIndex addr + 1)).Open b → mmu.Open b ∧ pageOf b ≠ pageOf addr ∧
        (tlbIndex addr ≠ 255 → pageOf b ≠ pageOf (lastByte addr shift)) := by
  obtain ⟨hok, hopen⟩ := h.turn h1
  have hindex := crosses_index hcross
  have hlt := tlbIndex_lt addr
  unfold cpuTlbSize at hlt
  have hfirst : ∀ b, tlbIndex b ≠ tlbIndex addr → pageOf b ≠ pageOf addr := fun b hb hp => hb (tlbIndex_congr hp)
  by_cases hlast : tlbIndex addr = 255
  · obtain ⟨hok', hopen'⟩ := hok.turn_behind (by unfold cpuTlbSize; omega : cpuTlbSize ≤ tlbIndex addr + 1)
    refine ⟨hok', fun b hb => ?_⟩
    obtain ⟨ho, hne⟩ := hopen b (hopen' b hb)
    exact ⟨ho, hfirst b hne, fun hne' => absurd hlast hne'⟩
  · have hnext : tlbIndex (lastByte addr shift) = tlbIndex addr + 1 := by omega
    have hready : (mmu.turn (tlbIndex addr)).Ready isWrite (lastByte addr shift) := by
      unfold UserMmu.Ready UserMmu.turn
      rw [setEntry_of_ne (by omega)]
      exact h2
    obtain ⟨hok', hopen'⟩ := hok.turn hready
    rw [hnext] at hok' hopen'
    refine ⟨hok', fun b hb => ?_⟩
    obtain ⟨hb', hne'⟩ := hopen' b hb
    obtain ⟨ho, hne⟩ := hopen b hb'
    exact ⟨ho, hfirst b hne, fun _ hp => hne' ((tlbIndex_congr hp).trans hnext)⟩

/-- What an access may come to. -/
inductive AccessOutcome (table : PageTable isWrite) (shift : Fin 4) (addr : TargetUlong) (mmu : UserMmu) :
    UserMmu → Prop
  | fault : AccessOutcome table shift addr mmu mmu
  | device {mmu₁ mmu' : UserMmu} (looked : LookedUp table addr mmu mmu₁)
      (flags : tlbFlags ((mmu₁.tlbTable (tlbIndex addr)).tag isWrite) ≠ 0)
      (grown : Grown (Accessed addr shift) mmu₁ mmu') : AccessOutcome table shift addr mmu mmu'
  | unwatched {mmu₁ mmu' : UserMmu} (looked : LookedUp table addr mmu mmu₁)
      (unchecked : memcheckValidate mmu.allocMap addr (dataSize shift) = false)
      (grown : Grown (Accessed addr shift) mmu₁ mmu') : AccessOutcome table shift addr mmu mmu'
  | secondFault {mmu₁ : UserMmu} (looked : LookedUp table addr mmu mmu₁) (crosses : CrossesPage addr shift)
      (none : table.lookup (pageOf (lastByte addr shift)) = none)
      (unready : ¬ mmu₁.Ready isWrite (lastByte addr shift)) :
      AccessOutcome table shift addr mmu mmu₁
  | turned {mmu₁ mmu' : UserMmu} (looked : LookedUp table addr mmu mmu₁) (grown : Grown (Accessed addr shift) mmu₁ mmu')
      (first : ∀ b, mmu'.Open b → pageOf b ≠ pageOf addr)
      (last : ∀ b, mmu'.Open b → CrossesPage addr shift → tlbIndex addr ≠ 255 →
        pageOf b ≠ pageOf (lastByte addr shift)) :
      AccessOutcome table shift addr mmu mmu'

theorem access_outcome {table : PageTable isWrite} {slow : UserMmu → TargetUlong → Except UserMmu UserMmu}
    {io : UserMmu → TargetUlong → UserMmu} (hslow : SlowOk table shift slow)
    (hio : ∀ mmu addr, MmuOk mmu → Grown (fun _ => False) mmu (io mmu addr)) (h : MmuOk mmu) (addr : TargetUlong) :
    AccessOutcome table shift addr mmu (finalMmu (accessMmu table slow io shift mmu addr)) := by
  rcases lookup_cases h table addr with ⟨mmu₁, hl, hlook⟩ | ⟨hl, -⟩
  · have h₁ := hlook.grown.ok
    have hmap := hlook.grown.map
    have hbody : accessMmu table slow io shift mmu addr =
        if tlbFlags ((mmu₁.tlbTable (tlbIndex addr)).tag isWrite) ≠ 0 then
          if Unaligned addr shift then slow mmu₁ addr else .ok (io mmu₁ addr)
        else if CrossesPage addr shift then
          slow mmu₁ addr >>= fun mmu₂ => if memcheckValidate mmu₁.allocMap addr (dataSize shift) then
            .ok ((mmu₂.turn (tlbIndex addr)).turn (tlbIndex addr + 1)) else .ok mmu₂
        else if memcheckValidate mmu₁.allocMap addr (dataSize shift) then .ok (mmu₁.turn (tlbIndex addr))
        else .ok mmu₁ := by
      unfold accessMmu
      rw [hl]
      simp only [if_pos (tlbIndex_lt addr)]
      rfl
    rw [hbody]
    rw [hmap]
    split_ifs with hflags hun hcross hval hval
    · exact .device hlook hflags (hslow.grown h₁)
    · exact .device hlook hflags ((hio mmu₁ addr h₁).mono fun _ => False.elim)
    · -- both entries are turned, unless the second page faults
      have hg : Grown (Accessed addr shift) mmu₁ (finalMmu (slow mmu₁ addr)) := hslow.grown h₁
      rcases hslow.crossed h₁ hlook.ready (not_not.1 hflags) hcross with ⟨hs, hnone, hnot⟩ | ⟨mmu₂, hs, hr1, hr2⟩
      · rw [hs]
        exact .secondFault hlook hcross hnone hnot
      · rw [hs] at hg ⊢
        obtain ⟨hok, hopen⟩ := hg.ok.turn_both hcross hr1 hr2
        exact .turned hlook ⟨hok, hg.map, fun b hb => hg.opened b (hopen b hb).1⟩ (fun b hb => (hopen b hb).2.1)
          fun b hb _ => (hopen b hb).2.2
    · refine .unwatched hlook (Bool.eq_false_iff.2 hval) ?_
      exact bind_grown (hslow.grown h₁) fun mmu₂ h₂ => .refl h₂
    · obtain ⟨hok, hopen⟩ := h₁.turn hlook.ready
      refine .turned hlook ⟨hok, rfl, fun b hb => .inl (hopen b hb).1⟩ (fun b hb hp => ?_)
        fun _ _ hc => absurd hc hcross
      exact (hopen b hb).2 (tlbIndex_congr hp)
    · exact .unwatched hlook (Bool.eq_false_iff.2 hval) (.refl h₁)
  · have hbody : accessMmu table slow io shift mmu addr = .error mmu := by
      unfold accessMmu
      rw [hl]
      rfl
    rw [hbody]
    exact .fault

variable {table : PageTable isWrite}

theorem LookedUp.grown_accessed {mmu₁ : UserMmu} (h : LookedUp table addr mmu mmu₁) :
    Grown (Accessed addr shift) mmu mmu₁ := h.grown.mono fun _ hp => .inl hp

/-- An access only opens its own pages. -/
theorem AccessOutcome.grown (h : MmuOk mmu) (ho : AccessOutcome table shift addr mmu mmu') :
    Grown (Accessed addr shift) mmu mmu' := by
  cases ho with
  | fault => exact .refl h
  | device looked _ grown => exact looked.grown_accessed.trans grown
  | unwatched looked _ grown => exact looked.grown_accessed.trans grown
  | secondFault looked _ _ _ => exact looked.grown_accessed
  | turned looked grown _ _ => exact looked.grown_accessed.trans grown

/-- The tag that a fine access finds has no flags. -/
theorem LookedUp.flags {mmu₁ : UserMmu} (h : LookedUp table addr mmu mmu₁) (hfine : AccessFine table shift mmu addr) :
    tlbFlags ((mmu₁.tlbTable (tlbIndex addr)).tag isWrite) = 0 := by
  rcases h.entry with ⟨hready, rfl⟩ | ⟨hnot, info, hinfo, rfl⟩
  · exact hfine.ready hready
  · rw [setEntry_self]
    exact plain_flags (hfine.plain hnot info hinfo) (table.allows _ _ hinfo)

/-- **An access keeps the heap pages watched** if it is fine or does not come to one. -/
theorem AccessOutcome.watched (h : MmuOk mmu) (hw : mmu.Watched) (ho : AccessOutcome table shift addr mmu mmu')
    (hfine : ∀ page, Accessed addr shift page → HeapPage mmu.allocMap page → AccessFine table shift mmu addr) :
    mmu'.Watched := by
  intro b hheap hopen
  have hg := ho.grown h
  rw [hg.map] at hheap
  have hnot := hw b hheap
  -- the page must be one of the access
  have hacc : Accessed addr shift (pageOf b) := (hg.opened b hopen).resolve_left hnot
  have hf := hfine _ hacc hheap
  cases ho with
  | fault => exact hnot hopen
  | device looked flags _ => exact flags (looked.flags hf)
  | unwatched looked unchecked _ =>
    rw [validate_of_fine h.map hf.outside hf.top hheap hacc] at unchecked
    exact Bool.noConfusion unchecked
  | secondFault looked crosses none unready =>
    -- only the first page has been opened
    have hpage : pageOf b = pageOf addr := (looked.grown.opened b hopen).resolve_left hnot
    have hindex : tlbIndex (lastByte addr shift) ≠ tlbIndex addr := by
      rw [crosses_index crosses]
      have := tlbIndex_lt addr
      unfold cpuTlbSize at this
      omega
    rw [hpage] at hheap
    rcases hf.second hheap crosses with hr | hr
    · exact unready ((looked.other _ hindex).2 hr)
    · exact hr none
  | turned looked _ first last =>
    rcases hacc with hp | hp
    · exact first b hopen hp
    · by_cases hcross : CrossesPage addr shift
      · by_cases hindex : tlbIndex addr = 255
        · rw [hp] at hheap
          exact hf.wrap hcross hindex hheap
        · exact last b hopen hcross hindex hp
      · exact first b hopen (hp.trans (not_crosses_page hcross))

/-! ## Fills from elsewhere -/

/-- A fill that leaves a heap page watched: it comes from outside of the helpers, for a page of RAM that is not the last
one of the address space. -/
def FillFine (mmu : UserMmu) (vaddr : TargetUlong) (info : PageInfo) (isSoftmmu : Bool) : Prop :=
  HeapPage mmu.allocMap (pageOf vaddr) → (info.read || info.write) = true →
    isSoftmmu = false ∧ info.kind.isRam = true ∧ pageOf vaddr ≠ targetPageMask

/-- The entry of a page that memcheck wants to see: the tags that can match are turned. -/
def PageInfo.turnedEntry (info : PageInfo) (a : TargetUlong) : CPUTLBEntry :=
  ⟨if info.read then info.addrRead (pageOf a) ^^^ targetPageMask else info.addrRead (pageOf a),
    if info.write then info.addrWrite (pageOf a) ^^^ targetPageMask else info.addrWrite (pageOf a)⟩

/-- If `tlb_set_page_exec` turns the tags. -/
def fillChecked (mmu : UserMmu) (a : TargetUlong) (info : PageInfo) (isSoftmmu : Bool) : Bool :=
  !isSoftmmu && info.kind.isRam && (info.read || info.write) && memcheckIsChecked mmu.allocMap (pageOf a) targetPageSize

theorem tlbSetPageExec_eq (mmu : UserMmu) (a : TargetUlong) (info : PageInfo) (isSoftmmu : Bool) :
    tlbSetPageExec mmu (pageOf a) info isSoftmmu =
      mmu.setEntry (tlbIndex a) (if fillChecked mmu a info isSoftmmu then info.turnedEntry a else info.entry a) := by
  unfold tlbSetPageExec
  rw [tlbIndex_congr (pageOf_pageOf a), pageOf_pageOf]
  rfl

theorem turnedEntry_turned (info : PageInfo) (a : TargetUlong) : Turned (tlbIndex a) (info.turnedEntry a) := by
  intro isWrite
  have htag : (info.turnedEntry a).tag isWrite = if info.allows isWrite then
      (info.entry a).tag isWrite ^^^ targetPageMask else (info.entry a).tag isWrite := by
    cases isWrite <;> rfl
  rw [htag]
  rcases hallows : info.allows isWrite with _ | _
  · left
    rw [if_neg (by decide), entry_invalid hallows]
    decide
  · right
    rw [if_pos rfl]
    exact turned_tag (tlbMatches_iff.1 (entry_matches hallows)).2

theorem page_checked (h : AllocMapOk map) {a : TargetUlong} (hheap : HeapPage map (pageOf a))
    (htop : pageOf a ≠ targetPageMask) : memcheckIsChecked map (pageOf a) targetPageSize = true := by
  have hfit := toNat_lastPage htop
  have hend : pageOf (pageOf a + .ofNat 32 targetPageSize - 1) = pageOf a := by
    have := toNat_pageOf a
    have := a.isLt
    rw [pageOf_eq_iff, toNat_sub, toNat_add, toNat_ofNat]
    unfold targetPageSize
    simp
    omega
  unfold memcheckIsChecked
  refine containsAllocs_of_heap h ?_ (by rwa [hend]) hheap (.inr hend.symm)
  rw [hend, pageOf_pageOf]

/-- A page that an entry has been filled with can be accessed. -/
theorem fill_open {b vaddr : TargetUlong} (hpage : pageOf b = pageOf vaddr)
    (hopen : (mmu.setEntry (tlbIndex vaddr) (info.entry vaddr)).Open b) : (info.read || info.write) = true := by
  obtain ⟨isWrite, hm⟩ := hopen
  rw [tlbIndex_congr hpage, setEntry_self] at hm
  have hallows : info.allows isWrite = true := by
    by_contra hnot
    rw [entry_invalid (Bool.eq_false_iff.2 hnot), tlbMatches_iff] at hm
    exact absurd hm.1 (by decide)
  cases isWrite with
  | false => rw [show info.read = true from hallows, Bool.true_or]
  | true => rw [show info.write = true from hallows, Bool.or_true]

theorem fill_watched (h : MmuOk mmu) (hw : mmu.Watched) {vaddr : TargetUlong} {isSoftmmu : Bool}
    (hfine : FillFine mmu vaddr info isSoftmmu) :
    MmuOk (tlbSetPageExec mmu (pageOf vaddr) info isSoftmmu) ∧
      (tlbSetPageExec mmu (pageOf vaddr) info isSoftmmu).Watched := by
  rw [tlbSetPageExec_eq]
  by_cases hchecked : fillChecked mmu vaddr info isSoftmmu = true
  · rw [if_pos hchecked]
    have ht := turnedEntry_turned info vaddr
    exact ⟨h.setEntry (.inr ht), fun b hheap hopen => hw b hheap (open_turned ht hopen).1⟩
  · rw [if_neg hchecked]
    have hg := Grown.fill h vaddr info
    refine ⟨hg.ok, fun b hheap hopen => hchecked ?_⟩
    have hpage : pageOf b = pageOf vaddr := (hg.opened b hopen).resolve_left (hw b hheap)
    have hprot := fill_open hpage hopen
    rw [hpage] at hheap
    obtain ⟨hsoft, hram, htop⟩ := hfine hheap hprot
    unfold fillChecked
    rw [hsoft, hram, hprot, page_checked h.map hheap htop]
    rfl

/-! ## Reports -/

theorem tag_invalidateEntry (te : CPUTLBEntry) (start : TargetUlong) (isWrite : Bool) :
    (invalidateEntry te start).tag isWrite =
      if TlbMatches start (te.tag isWrite) then te.tag isWrite ^^^ targetPageMask else te.tag isWrite := by
  cases isWrite <;> rfl

variable {start : TargetUlong}

/-- An entry is either turned, or it does not match and stays as it is. -/
theorem invalidateEntry_cases (h : EntryOk (tlbIndex start) te) :
    Turned (tlbIndex start) (invalidateEntry te start) ∨
      invalidateEntry te start = te ∧ ∀ isWrite, ¬ TlbMatches start (te.tag isWrite) := by
  by_cases hm : ∃ isWrite, TlbMatches start (te.tag isWrite)
  · obtain ⟨isWrite, hm⟩ := hm
    have hs := h.straight hm
    refine .inl fun isWrite' => ?_
    rw [tag_invalidateEntry]
    split_ifs with hm'
    · exact .inr (turned_tag (tlbMatches_iff.1 hm').2)
    · rcases hs isWrite' with h3 | hp
      · exact .inl h3
      · -- a valid tag of the page matches
        left
        by_contra hnot
        exact hm' (tlbMatches_iff.2 ⟨Bool.eq_false_iff.2 hnot, hp⟩)
  · have hnot : ∀ isWrite, ¬ TlbMatches start (te.tag isWrite) := not_exists.1 hm
    refine .inr ⟨?_, hnot⟩
    unfold invalidateEntry
    rw [if_neg (show ¬ TlbMatches start te.addrRead from hnot false),
      if_neg (show ¬ TlbMatches start te.addrWrite from hnot true)]

theorem invalidate_step (h : MmuOk mmu) (start : TargetUlong) :
    MmuOk (mmu.setEntry (tlbIndex start) (invalidateEntry (mmu.tlbTable (tlbIndex start)) start)) ∧
      ∀ b, (mmu.setEntry (tlbIndex start) (invalidateEntry (mmu.tlbTable (tlbIndex start)) start)).Open b →
        mmu.Open b ∧ pageOf b ≠ pageOf start := by
  rcases invalidateEntry_cases (h.entry _ (tlbIndex_lt start)) with ht | ⟨heq, hnot⟩
  · refine ⟨h.setEntry (.inr ht), fun b hb => ?_⟩
    obtain ⟨ho, hne⟩ := open_turned ht hb
    exact ⟨ho, fun hp => hne (tlbIndex_congr hp)⟩
  · rw [heq]
    have hself : mmu.setEntry (tlbIndex start) (mmu.tlbTable (tlbIndex start)) = mmu := by
      unfold UserMmu.setEntry
      rw [update_eq_self]
    rw [hself]
    refine ⟨h, fun b hb => ⟨hb, fun hp => ?_⟩⟩
    obtain ⟨isWrite, hm⟩ := (open_congr hp).1 hb
    exact hnot isWrite hm

theorem tlbIndex_next (h : tlbIndex start < 255) :
    tlbIndex (start + .ofNat 32 targetPageSize) = tlbIndex start + 1 := by
  have hlt := start.isLt
  unfold targetPageSize
  rw [tlbIndex_eq] at h ⊢
  rw [tlbIndex_eq, toNat_add, toNat_ofNat]
  omega

/-- **The pages that the loop comes to are closed**, and nothing is opened. -/
theorem invalidateLoop_closes {left index : ℕ} (h : MmuOk mmu) (hfit : index + left ≤ cpuTlbSize)
    (hstart : 0 < left → tlbIndex start = index) :
    MmuOk (invalidateLoop left index start mmu) ∧ (invalidateLoop left index start mmu).allocMap = mmu.allocMap ∧
      ∀ b, (invalidateLoop left index start mmu).Open b →
        mmu.Open b ∧ ∀ k < left, pageOf b ≠ pageOf (start + .ofNat 32 (k * targetPageSize)) := by
  induction left generalizing mmu index start with
  | zero => exact ⟨h, rfl, fun b hb => ⟨hb, fun k hk => absurd hk (Nat.not_lt_zero k)⟩⟩
  | succ left ih =>
    obtain rfl := hstart (Nat.succ_pos left)
    obtain ⟨hok, hopen⟩ := invalidate_step h start
    have hnext : 0 < left → tlbIndex (start + .ofNat 32 targetPageSize) = tlbIndex start + 1 := by
      intro hleft
      unfold cpuTlbSize at hfit
      exact tlbIndex_next (by omega)
    obtain ⟨hok', hmap, hopen'⟩ := ih hok (by omega) hnext
    refine ⟨hok', hmap, fun b hb => ?_⟩
    obtain ⟨hb₁, hrest⟩ := hopen' b hb
    obtain ⟨ho, hne⟩ := hopen b hb₁
    refine ⟨ho, fun k hk => ?_⟩
    cases k with
    | zero => simpa using hne
    | succ k =>
      have hsum : start + .ofNat 32 ((k + 1) * targetPageSize) =
          start + .ofNat 32 targetPageSize + .ofNat 32 (k * targetPageSize) := by
        rw [Nat.succ_mul, Nat.add_comm, ofNat_add, BitVec.add_assoc]
      rw [hsum]
      exact hrest k (by omega)

variable {R : Rebalance MallocDescEx} {desc : MallocDescEx}

/-- The result tells if the block meets an entry. -/
theorem allocmapInsert_inserted (h : AllocMapOk map) (hd : ProperBlock desc) :
    (allocmapInsert R map desc true).1 = .entryInserted ↔ ∀ e ∈ map.toList, ¬ Intersects desc e := by
  rw [← h.find_none_iff hd]
  unfold allocmapInsert allocmapInsertDesc
  rcases hf : map.find (allocCmpRb desc) with _ | e
  · rw [R.insert_of_none hf]
    simp
  · rw [R.insert_of_some hf]
    simp

theorem allocmapInsert_mem (h : AllocMapOk map) (hd : ProperBlock desc) {e : MallocDescEx}
    (he : e ∈ (allocmapInsert R map desc true).2.2.toList) : e = desc ∨ e ∈ map.toList := by
  cases (allocmapInsert_cases (R := R) h hd).2.2 with
  | new _ mem => exact (mem e).1 he
  | replaced _ _ _ mem => exact ((mem e).1 he).imp_right And.right
  | lost _ _ _ _ _ mem => exact .inr ((mem e).1 he).2

/-- A block that leaves the heap pages watched: those of its pages that are open are invalidated. It meets no other
block, and `invalidate_tlb_cache` comes to the page. -/
def AllocFine (mmu : UserMmu) (desc : MallocDescEx) : Prop :=
  ∀ a : TargetUlong, InBlock desc a.toNat → mmu.Open a →
    (∀ e ∈ mmu.allocMap.toList, ¬ Intersects desc e) ∧
      tlbIndex (.ofNat 32 desc.mallocDesc.ptr) + (a.toNat / 1024 - desc.mallocDesc.ptr / 1024) ≤
        tlbIndex (.ofNat 32 (mallocdescGetAllocEnd desc.mallocDesc) - 1)

theorem memcheckGuestAlloc_eq (R : Rebalance MallocDescEx) (mmu : UserMmu) (desc : MallocDescEx) :
    memcheckGuestAlloc R mmu desc =
      if (allocmapInsert R mmu.allocMap desc true).1 = .entryInserted then
        invalidateTlbCache { mmu with allocMap := (allocmapInsert R mmu.allocMap desc true).2.2 }
          (.ofNat 32 desc.mallocDesc.ptr) (.ofNat 32 (mallocdescGetAllocEnd desc.mallocDesc))
      else { mmu with allocMap := (allocmapInsert R mmu.allocMap desc true).2.2 } := by
  unfold memcheckGuestAlloc
  rcases allocmapInsert R mmu.allocMap desc true with ⟨res, replaced, map'⟩
  cases res <;> rfl

/-- The pages of a new block that `invalidate_tlb_cache` comes to are closed. -/
theorem invalidateTlbCache_closes (h : MmuOk mmu) (start stop : TargetUlong) :
    MmuOk (invalidateTlbCache mmu start stop) ∧ (invalidateTlbCache mmu start stop).allocMap = mmu.allocMap ∧
      ∀ b, (invalidateTlbCache mmu start stop).Open b → mmu.Open b ∧
        ∀ k, tlbIndex start + k ≤ tlbIndex (stop - 1) → pageOf b ≠ pageOf (start + .ofNat 32 (k * targetPageSize)) := by
  have hfit : tlbIndex start + (tlbIndex (stop - 1) + 1 - tlbIndex start) ≤ cpuTlbSize := by
    have := tlbIndex_lt start
    have := tlbIndex_lt (stop - 1)
    omega
  obtain ⟨hok, hmap, hopen⟩ := invalidateLoop_closes h hfit fun _ => rfl
  exact ⟨hok, hmap, fun b hb => ⟨(hopen b hb).1, fun k hk => (hopen b hb).2 k (by omega)⟩⟩

/-- The page of a byte of the block is one of the pages from its start on. -/
theorem block_page (hd : ProperBlock desc) {a : TargetUlong} (ha : InBlock desc a.toNat) :
    pageOf a = pageOf (.ofNat 32 desc.mallocDesc.ptr +
      .ofNat 32 ((a.toNat / 1024 - desc.mallocDesc.ptr / 1024) * targetPageSize)) := by
  have hfits := hd.fits
  have hlt := a.isLt
  unfold InBlock at ha
  unfold targetPageSize
  rw [pageOf_eq_iff, toNat_add, toNat_ofNat, toNat_ofNat]
  omega

theorem alloc_watched (h : MmuOk mmu) (hw : mmu.Watched) (hd : ProperBlock desc) (hfine : AllocFine mmu desc) :
    MmuOk (memcheckGuestAlloc R mmu desc) ∧ (memcheckGuestAlloc R mmu desc).Watched := by
  have hmap := (allocmapInsert_cases (R := R) h.map hd).2.1
  have hmem := fun e => allocmapInsert_mem (R := R) (e := e) h.map hd
  have hins := allocmapInsert_inserted (R := R) h.map hd
  rw [memcheckGuestAlloc_eq]
  generalize (allocmapInsert R mmu.allocMap desc true).2.2 = map' at *
  have h₁ : MmuOk { mmu with allocMap := map' } := ⟨hmap, h.entry⟩
  -- a heap page that is open is one of the new block
  have hnew : ∀ b, mmu.Open b → HeapPage map' (pageOf b) →
      ∃ a : TargetUlong, InBlock desc a.toNat ∧ pageOf a = pageOf b ∧ mmu.Open a := by
    rintro b hopen ⟨e, he, a, ha, hp⟩
    rcases hmem e he with rfl | he
    · exact ⟨a, ha, hp, (open_congr hp).2 hopen⟩
    · exact absurd hopen (hw b ⟨e, he, a, ha, hp⟩)
  split_ifs with hr
  · obtain ⟨hok, hsame, hopen⟩ := invalidateTlbCache_closes h₁ (.ofNat 32 desc.mallocDesc.ptr)
      (.ofNat 32 (mallocdescGetAllocEnd desc.mallocDesc))
    refine ⟨hok, fun b hheap hb => ?_⟩
    obtain ⟨hb₁, hclosed⟩ := hopen b hb
    rw [hsame] at hheap
    obtain ⟨a, ha, hp, hoa⟩ := hnew b hb₁ hheap
    exact hclosed _ (hfine a ha hoa).2 (hp.symm.trans (block_page hd ha))
  · refine ⟨h₁, fun b hheap hb => ?_⟩
    obtain ⟨a, ha, -, hoa⟩ := hnew b hb hheap
    exact hr (hins.2 (hfine a ha hoa).1)

theorem free_watched (h : MmuOk mmu) (hw : mmu.Watched) (ptr : ℕ) :
    MmuOk (memcheckGuestFree R mmu ptr) ∧ (memcheckGuestFree R mmu ptr).Watched := by
  unfold memcheckGuestFree allocmapPull
  split
  · rename_i e _
    obtain ⟨hok, hmem⟩ := h.map.remove (R := R) e
    refine ⟨⟨hok, h.entry⟩, ?_⟩
    rintro b ⟨e', he', ha⟩
    exact hw b ⟨e', ((hmem e').1 he').2, ha⟩
  · exact ⟨h, hw⟩

/-! ## Runs -/

inductive MmuEvent where
  | load (shift : Fin 4) (table : PageTable false) (addr : TargetUlong)
  | store (shift : Fin 4) (table : PageTable true) (dirties : TargetUlong → Bool) (addr : TargetUlong)
  | fill (vaddr : TargetUlong) (info : PageInfo) (isSoftmmu : Bool)
  | alloc (desc : MallocDescEx) (proper : ProperBlock desc)
  | free (ptr : ℕ)

namespace MmuEvent

def run (R : Rebalance MallocDescEx) (mmu : UserMmu) : MmuEvent → UserMmu
  | load shift table addr => userAccess false (ldMmu table shift) shift mmu addr
  | store shift table dirties addr => userAccess true (stMmu table dirties shift) shift mmu addr
  | fill vaddr info isSoftmmu => tlbSetPageExec mmu (pageOf vaddr) info isSoftmmu
  | alloc desc _ => memcheckGuestAlloc R mmu desc
  | free ptr => memcheckGuestFree R mmu ptr

/-- An event on which memcheck does not lose sight of a heap page. -/
def Fine (mmu : UserMmu) : MmuEvent → Prop
  | load shift table addr =>
    ∀ page, Accessed addr shift page → HeapPage mmu.allocMap page → AccessFine table shift mmu addr
  | store shift table _ addr =>
    ∀ page, Accessed addr shift page → HeapPage mmu.allocMap page → AccessFine table shift mmu addr
  | fill vaddr info isSoftmmu => FillFine mmu vaddr info isSoftmmu
  | alloc desc _ => AllocFine mmu desc
  | free _ => True

end MmuEvent

/-- All the events of a run are fine. -/
def FineMmuRun (R : Rebalance MallocDescEx) : UserMmu → List MmuEvent → Prop
  | _, [] => True
  | mmu, event :: events => event.Fine mmu ∧ FineMmuRun R (event.run R mmu) events

/-- The events one after another. -/
def mmuRun (R : Rebalance MallocDescEx) (mmu : UserMmu) (events : List MmuEvent) : UserMmu :=
  events.foldl (MmuEvent.run R) mmu

theorem access_watched {table : PageTable isWrite} {slow : UserMmu → TargetUlong → Except UserMmu UserMmu}
    {io : UserMmu → TargetUlong → UserMmu} (hslow : SlowOk table shift slow)
    (hio : ∀ mmu addr, MmuOk mmu → Grown (fun _ => False) mmu (io mmu addr)) (h : MmuOk mmu) (hw : mmu.Watched)
    (hfine : ∀ page, Accessed addr shift page → HeapPage mmu.allocMap page → AccessFine table shift mmu addr) :
    MmuOk (userAccess isWrite (accessMmu table slow io shift) shift mmu addr) ∧
      (userAccess isWrite (accessMmu table slow io shift) shift mmu addr).Watched := by
  unfold userAccess
  split_ifs
  · exact ⟨h, hw⟩
  · have ho := access_outcome hslow hio h addr
    exact ⟨(ho.grown h).ok, ho.watched h hw hfine⟩

/-- **One event** that is fine keeps the heap pages watched. -/
theorem step_watched (h : MmuOk mmu) (hw : mmu.Watched) {event : MmuEvent} (hfine : event.Fine mmu) :
    MmuOk (event.run R mmu) ∧ (event.run R mmu).Watched := by
  cases event with
  | load shift table addr => exact access_watched (slowLd_ok table shift) (fun _ _ h => .refl h) h hw hfine
  | store shift table dirties addr =>
    exact access_watched (slowSt_ok table dirties shift) (fun _ b h => (ioWrite_frame dirties h b).1) h hw hfine
  | fill vaddr info isSoftmmu => exact fill_watched h hw hfine
  | alloc desc proper => exact alloc_watched h hw proper hfine
  | free ptr => exact free_watched h hw ptr

theorem run_watched {events : List MmuEvent} (h : MmuOk mmu) (hw : mmu.Watched)
    (hfine : FineMmuRun R mmu events) (n : ℕ) :
    (mmuRun R mmu (events.take n)).Watched := by
  induction events generalizing mmu n with
  | nil =>
    rw [List.take_nil]
    exact hw
  | cons event events ih =>
    cases n with
    | zero => exact hw
    | succ n =>
      obtain ⟨hok, hw'⟩ := step_watched (R := R) h hw hfine.1
      exact ih hok hw' hfine.2 n

theorem userMmuInit_turned (index : ℕ) : Turned index (userMmuInit.tlbTable index) := by
  intro isWrite
  left
  cases isWrite <;> exact (by decide : (-1 : TargetUlong).getLsbD 3 = true)

theorem userMmuInit_ok : MmuOk userMmuInit := ⟨allocMapOk_leaf, fun index _ => .inr (userMmuInit_turned index)⟩

theorem userMmuInit_watched : userMmuInit.Watched := by
  rintro addr ⟨e, he, -⟩
  exact absurd he List.not_mem_nil

/-- An access that goes past the helpers is one to an open page. -/
theorem inline_open {tag : TargetUlong} (h : tag = addr &&& (targetPageMask ||| .ofNat 32 (dataSize shift - 1))) :
    TlbMatches addr tag := by
  subst h
  rw [tlbMatches_iff]
  constructor
  · rw [getLsbD_and, getLsbD_or, show targetPageMask.getLsbD 3 = false by decide, Bool.false_or]
    fin_cases shift <;> simp [dataSize]
  · refine eq_of_getLsbD_eq fun i _ => ?_
    simp only [pageOf, getLsbD_and, getLsbD_or]
    cases targetPageMask.getLsbD i <;> simp

/-- **Memcheck never stops watching a heap page** in a run of fine events. After each of them the tags of a heap page do
not match it, and so the next access to it comes to a helper. -/
theorem watched_run (R : Rebalance MallocDescEx) {events : List MmuEvent}
    (h : FineMmuRun R userMmuInit events) (n : ℕ) :
    (mmuRun R userMmuInit (events.take n)).Watched ∧
      ∀ (addr : TargetUlong) (shift : Fin 4) (isWrite : Bool),
        HeapPage (mmuRun R userMmuInit (events.take n)).allocMap (pageOf addr) →
        ((mmuRun R userMmuInit (events.take n)).tlbTable (tlbIndex addr)).tag isWrite ≠
          addr &&& (targetPageMask ||| .ofNat 32 (dataSize shift - 1)) := by
  have hw := run_watched userMmuInit_ok userMmuInit_watched h n
  exact ⟨hw, fun addr shift isWrite hheap htag => hw addr hheap ⟨isWrite, inline_open htag⟩⟩

/-- All pages are dirty RAM. -/
def ramTable (isWrite : Bool) : PageTable isWrite :=
  ⟨fun _ => some ⟨true, true, .ram true, false⟩, by rintro page info ⟨⟩; cases isWrite <;> rfl⟩

theorem sixteenBytes_alloc : ProperBlock (sixteenBytes 65536) := sixteenBytes_proper (by decide)

/-- The guarding area in front of a block is read. -/
theorem watched_prefix : (mmuRun .spine userMmuInit
    [.alloc (sixteenBytes 65536) sixteenBytes_alloc, .load 2 (ramTable false) 65536]).Watched := by
  have halloc : AllocFine userMmuInit (sixteenBytes 65536) := by
    rintro a - ⟨isWrite, hm⟩
    exact absurd hm (userMmuInit_turned _).not_match
  have hfind : allocmapFind (MmuEvent.run .spine userMmuInit (.alloc (sixteenBytes 65536) sixteenBytes_alloc)).allocMap
      65536 4 = some (sixteenBytes 65536) := by decide
  have hload : AccessFine (ramTable false) 2
      (MmuEvent.run .spine userMmuInit (.alloc (sixteenBytes 65536) sixteenBytes_alloc)) 65536 := by
    refine ⟨by decide, fun _ info hinfo => ?_, fun e he => .inl ?_, fun _ hc => absurd hc (by decide),
      fun hc => absurd hc (by decide), by decide⟩
    · obtain rfl := Option.some.inj hinfo
      exact ⟨rfl, by decide⟩
    · obtain rfl := Option.some.inj (hfind.symm.trans he)
      decide
  have hfine : FineMmuRun .spine userMmuInit
      [.alloc (sixteenBytes 65536) sixteenBytes_alloc, .load 2 (ramTable false) 65536] :=
    ⟨halloc, fun _ _ _ => hload, trivial⟩
  exact (watched_run .spine hfine 2).1

/-- The user part of a block is read: after that the page is not watched any more. -/
theorem watched_fails : ¬ ∀ events : List MmuEvent, (mmuRun .spine userMmuInit events).Watched := by
  intro hall
  refine hall [.alloc (sixteenBytes 65536) sixteenBytes_alloc, .load 2 (ramTable false) 65540] 65540 ?_ ?_
  · exact ⟨sixteenBytes 65536, List.mem_singleton.2 rfl, 65540, by decide, rfl⟩
  · exact ⟨false, by decide⟩

end Emulator.Memcheck
