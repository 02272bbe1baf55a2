import Emulator.Exec.BlockOctets

/-!
# The bitmap of the code on a page

* `bitAt_setBits`: `set_bits` sets exactly the bits from `start` on, `len` of them.
* `buildPageBitmap_ok`: a walk along the list of the page, which gives the bits of all its links.
* `bitmapCovers_pageBitmap`: each octet of a block on the page has its bit.
-/

namespace Emulator.Exec

open Function Blocks TbState

variable {s : TbState} {L : TbLists} {i t : ℕ} {start last : TargetUlong} {b b' : Blocks}

/-- The bit of the octet `k` of a page. -/
def bitAt (tab : ℕ → BitVec 8) (k : ℕ) : Bool := (tab (k / 8)).getLsbD (k % 8)

theorem bitAt_orByte (tab : ℕ → BitVec 8) (j : ℕ) (mask : BitVec 8) (k : ℕ) :
    bitAt (orByte tab j mask) k = (bitAt tab k || (decide (k / 8 = j) && mask.getLsbD (k % 8))) := by
  by_cases hk : k / 8 = j
  · subst hk
    simp [bitAt, orByte]
  · simp [bitAt, orByte, hk]

theorem bitAt_fillBytes (rounds : ℕ) : ∀ (tab : ℕ → BitVec 8) (j k : ℕ),
    bitAt (fillBytes tab j rounds) k = (bitAt tab k || decide (j ≤ k / 8 ∧ k / 8 < j + rounds)) := by
  induction rounds with
  | zero =>
    intro tab j k
    simp [fillBytes]
  | succ rounds ih =>
    intro tab j k
    rw [fillBytes, ih]
    by_cases hk : k / 8 = j
    · have hbit : bitAt (update tab j 0xff) k = true := by
        have hmod : k % 8 < 8 := Nat.mod_lt k (by omega)
        rw [bitAt, hk, update_self]
        interval_cases k % 8 <;> rfl
      have hin : j ≤ k / 8 ∧ k / 8 < j + (rounds + 1) := by omega
      rw [hbit, decide_eq_true hin, Bool.true_or, Bool.or_true]
    · have hbit : bitAt (update tab j 0xff) k = bitAt tab k := by
        rw [bitAt, update_of_ne hk, bitAt]
      have hiff : (j + 1 ≤ k / 8 ∧ k / 8 < j + 1 + rounds) ↔ (j ≤ k / 8 ∧ k / 8 < j + (rounds + 1)) := by omega
      rw [hbit, decide_eq_decide.2 hiff]

/-- The masks at the two ends. -/
theorem getLsbD_endMask (n k : ℕ) : (0xff#8 <<< n).getLsbD (k % 8) = decide (n ≤ k % 8) := by
  have hk : k % 8 < 8 := Nat.mod_lt k (by omega)
  rw [BitVec.getLsbD_shiftLeft]
  by_cases hn : n ≤ k % 8
  · have hones : ∀ j < 8, (0xff#8).getLsbD j = true := by decide
    simp [hk, hn, hones (k % 8 - n) (by omega), Nat.not_lt.2 hn]
  · simp [hn, Nat.lt_of_not_le hn]

/-- **`set_bits` is exact**, for every start and length. -/
theorem bitAt_setBits (tab : ℕ → BitVec 8) (start len k : ℕ) :
    bitAt (setBits tab start len) k = (bitAt tab k || decide (start ≤ k ∧ k < start + len)) := by
  have hmod : k % 8 < 8 := Nat.mod_lt k (by omega)
  have hlow : ∀ n, (~~~ (0xff#8 <<< n)).getLsbD (k % 8) = decide (k % 8 < n) := by
    intro n
    rw [BitVec.getLsbD_not, getLsbD_endMask, decide_eq_true hmod, Bool.true_and, ← decide_not]
    exact decide_eq_decide.2 Nat.not_le
  unfold setBits
  simp only
  by_cases hsame : start / 8 * 8 = (start + len) / 8 * 8
  · rw [if_pos hsame]
    by_cases hlen : start < start + len
    · -- the bits are in one byte
      rw [if_pos hlen, bitAt_orByte, BitVec.getLsbD_and, getLsbD_endMask, hlow, ← Bool.decide_and, ← Bool.decide_and]
      congr 1
      refine decide_eq_decide.2 ?_
      omega
    · have hnone : ¬ (start ≤ k ∧ k < start + len) := by omega
      rw [if_neg hlen, decide_eq_false hnone, Bool.or_false]
  · rw [if_neg hsame]
    by_cases hend : (start + len) / 8 * 8 < start + len
    · rw [if_pos hend, bitAt_orByte, bitAt_fillBytes, bitAt_orByte, getLsbD_endMask, hlow, Bool.or_assoc, Bool.or_assoc,
        ← Bool.decide_and, ← Bool.decide_and, ← Bool.decide_or, ← Bool.decide_or]
      congr 1
      refine decide_eq_decide.2 ?_
      omega
    · rw [if_neg hend, bitAt_fillBytes, bitAt_orByte, getLsbD_endMask, Bool.or_assoc, ← Bool.decide_and,
        ← Bool.decide_or]
      congr 1
      refine decide_eq_decide.2 ?_
      omega

/-- The bits of the links, one after the other. -/
def pageBitmap (b : Blocks) (links : List PageLink) (tab : ℕ → BitVec 8) : ℕ → BitVec 8 :=
  links.foldl
    (fun tab e => setBits tab (bitmapStart (b e.1) e.2) (bitmapEnd (b e.1) e.2 - bitmapStart (b e.1) e.2)) tab

theorem bitAt_pageBitmap {links : List PageLink} {k : ℕ} : ∀ {tab : ℕ → BitVec 8},
    bitAt (pageBitmap b links tab) k = true ↔
      bitAt tab k = true ∨ ∃ e ∈ links, bitmapStart (b e.1) e.2 ≤ k ∧ k < bitmapEnd (b e.1) e.2 := by
  induction links with
  | nil => simp [pageBitmap]
  | cons e links ih =>
    intro tab
    have hone : bitmapStart (b e.1) e.2 ≤ k ∧
      k < bitmapStart (b e.1) e.2 + (bitmapEnd (b e.1) e.2 - bitmapStart (b e.1) e.2) ↔
        bitmapStart (b e.1) e.2 ≤ k ∧ k < bitmapEnd (b e.1) e.2 := by
      omega
    rw [pageBitmap, List.foldl_cons, ← pageBitmap, ih, bitAt_setBits, Bool.or_eq_true, decide_eq_true_eq, hone]
    simp only [List.mem_cons, exists_eq_or_imp, or_assoc]

/-- The walk that builds the bitmap. -/
theorem buildPageBitmap_ok {lists : ℕ → List PageLink} {here : ℕ → Prop} (h : LinkedLists s.pageRead here lists)
    (hi : here i) {l : List PageLink} : ∀ {r : List PageLink} {fuel : ℕ} {tab : ℕ → BitVec 8}, lists i = l ++ r →
      r.length < fuel → buildPageBitmap s.tb fuel r.head? tab = some (pageBitmap s.tb r tab) := by
  intro r
  induction r generalizing l with
  | nil =>
    intro fuel tab _ hfuel
    obtain ⟨m, rfl⟩ := Nat.exists_eq_succ_of_ne_zero (show fuel ≠ 0 by omega)
    rfl
  | cons e r ih =>
    intro fuel tab hl hfuel
    obtain ⟨m, rfl⟩ := Nat.exists_eq_succ_of_ne_zero (show fuel ≠ 0 by omega)
    obtain ⟨t, n⟩ := e
    have hnext : (s.tb t).pageNext n = r.head? := Option.some.inj (h.read_node hi hl)
    rw [List.head?_cons, buildPageBitmap, hnext]
    exact ih (l := l ++ [(t, n)]) (by simp [hl]) (by simpa using hfuel)

/-- The bits of the page are those of the octets of its blocks. -/
def BitmapCovers (b : Blocks) (tab : ℕ → BitVec 8) (i : ℕ) (l : List ℕ) : Prop :=
  ∀ t ∈ l, ∀ k < (b t).size, (b t).octetAddr k / 1024 = i → bitAt tab ((b t).octetAddr k % 1024) = true

/-- The page of an octet is one of the pages of the block, with the octet among the bits of the link. -/
theorem link_of_octet (h : WellPlaced (b t).toTbCode) {k : ℕ} (hk : k < (b t).size)
    (hi : (b t).octetAddr k / 1024 = i) :
    ∃ n, OnPage (b t) n i ∧ bitmapStart (b t) n ≤ (b t).octetAddr k % 1024 ∧
      (b t).octetAddr k % 1024 < bitmapEnd (b t) n := by
  have hal := aligned_of_offset h.first
  have hoff := toNat_pageOffset (b t).pc
  have hsize := h.size_le
  by_cases hfirst : (pageOffset (b t).pc).toNat + k < 1024
  · rw [TbCode.octetAddr, if_pos hfirst] at hi ⊢
    refine ⟨0, ⟨fun he => ?_, ?_⟩, ?_⟩
    · rw [he] at hal
      revert hal
      decide
    · rw [pageIndex_eq]
      omega
    · have hmod : (((b t).pageAddr 0).toNat + ((pageOffset (b t).pc).toNat + k)) % 1024 =
        (pageOffset (b t).pc).toNat + k := by
        omega
      rw [hmod]
      simp only [bitmapStart, bitmapEnd, if_true]
      omega
  · rw [TbCode.octetAddr, if_neg hfirst] at hi ⊢
    have h1 : (b t).pageAddr 1 ≠ -1 := by
      intro he
      have hsecond := h.second (by omega)
      rw [he] at hsecond
      revert hsecond
      decide
    have hal1 := (h.second_page h1).2
    have hend : (pageOffset ((b t).pc + .ofNat 32 (b t).size)).toNat =
      (pageOffset (b t).pc).toNat + (b t).size - 1024 := by
      rw [toNat_pageOffset, BitVec.toNat_add, BitVec.toNat_ofNat]
      omega
    refine ⟨1, ⟨h1, by rw [pageIndex_eq]; omega⟩, ?_⟩
    simp only [bitmapStart, bitmapEnd, if_neg one_ne_zero, hend]
    omega

/-- **Each octet has its bit** in a bitmap that has been built. -/
theorem bitmapCovers_pageBitmap {l : List ℕ} (hplaced : ∀ t ∈ l, WellPlaced (b t).toTbCode) (tab : ℕ → BitVec 8) :
    BitmapCovers b (pageBitmap b (pageLinks b i l) tab) i l := by
  intro t ht k hk hpage
  obtain ⟨n, hon, hbits⟩ := link_of_octet (hplaced t ht) hk hpage
  exact bitAt_pageBitmap.2 (.inr ⟨(t, n), List.mem_flatMap.2 ⟨t, ht, mem_entries.2 ⟨rfl, hon⟩⟩, hbits⟩)

theorem BitmapCovers.congr {tab : ℕ → BitVec 8} {l : List ℕ} (h : BitmapCovers b tab i l)
    (hcode : ∀ t, (b' t).toTbCode = (b t).toTbCode) : BitmapCovers b' tab i l := by
  intro t ht
  rw [hcode t]
  exact h t ht

/-- A page that has a bitmap has blocks, and the bitmap has the bits of their octets. -/
def BitmapsOK (s : TbState) (L : TbLists) : Prop :=
  ∀ i tab, s.bitmapOf i = some tab → L.pages i ≠ [] ∧ BitmapCovers s.tb tab i (L.pages i)

/-- The test of `tb_invalidate_phys_page_fast`, for a write inside one byte of the bitmap. -/
theorem bitmapTest_iff {tab : ℕ → BitVec 8} {offset len : ℕ} (hbyte : offset % 8 + len ≤ 8) :
    ((tab (offset / 8) >>> (offset % 8)).toNat &&& (1 <<< len - 1)) ≠ 0 ↔
      ∃ k, offset ≤ k ∧ k < offset + len ∧ bitAt tab k = true := by
  have hbit : ∀ j, ((tab (offset / 8) >>> (offset % 8)).toNat &&& (1 <<< len - 1)).testBit j =
      ((tab (offset / 8)).getLsbD (offset % 8 + j) && decide (j < len)) := by
    intro j
    rw [Nat.testBit_and, Nat.one_shiftLeft, Nat.testBit_two_pow_sub_one, BitVec.testBit_toNat,
      BitVec.getLsbD_ushiftRight]
  constructor
  · intro hne
    obtain ⟨j, hj⟩ := Nat.exists_testBit_of_ne_zero hne
    rw [hbit, Bool.and_eq_true, decide_eq_true_eq] at hj
    refine ⟨offset + j, by omega, by omega, ?_⟩
    rw [bitAt, show (offset + j) / 8 = offset / 8 by omega, show (offset + j) % 8 = offset % 8 + j by omega]
    exact hj.1
  · rintro ⟨k, hge, hlt, hk⟩ hzero
    have hj := hbit (k - offset)
    rw [hzero, Nat.zero_testBit, show offset % 8 + (k - offset) = k % 8 by omega,
      show offset / 8 = k / 8 by omega, ← bitAt, hk, decide_eq_true (show k - offset < len by omega)] at hj
    cases hj

end Emulator.Exec
