import Emulator.Exec.TbInvariant

/-!
# The octets of a block

Where the code of a block is, against the test that `tb_invalidate_phys_page_range` makes for a link.

* `tbHit_first`, `tbHit_second`: the test for the two links in natural numbers.
* `meets_iff`: a block meets a range with its first or with its second page.
-/

namespace Emulator.Exec

open Blocks TbState BitVec

variable {s s' : TbState} {L : TbLists} {i t : ℕ} {start last : TargetUlong}

/-- The physical address of the `k`-th octet of the block. -/
def TbCode.octetAddr (t : TbCode) (k : ℕ) : ℕ :=
  if (pageOffset t.pc).toNat + k < 1024 then (t.pageAddr 0).toNat + ((pageOffset t.pc).toNat + k)
  else (t.pageAddr 1).toNat + ((pageOffset t.pc).toNat + k - 1024)

/-- The block has an octet in the range. -/
def TbCode.Meets (t : TbCode) (start last : TargetUlong) : Prop :=
  ∃ k < t.size, start.toNat ≤ t.octetAddr k ∧ t.octetAddr k < last.toNat

/-- The range is inside one page. -/
def InPage (start last : TargetUlong) : Prop := start < last → pageIndex (last - 1) = pageIndex start

/-- The code of the block on its first page goes to the end of the address space. -/
def TbCode.ReachesTop (t : TbCode) : Prop := 2 ^ 32 ≤ (t.pageAddr 0).toNat + (pageOffset t.pc).toNat + t.size

theorem toNat_pageOffset (a : TargetUlong) : (pageOffset a).toNat = a.toNat % 1024 := by
  rw [pageOffset, toNat_and]
  exact Nat.and_two_pow_sub_one_eq_mod a.toNat 10

theorem pageIndex_eq (a : TargetUlong) : pageIndex a = a.toNat / 1024 := by
  rw [pageIndex, toNat_ushiftRight, Nat.shiftRight_eq_div_pow]

theorem aligned_of_offset {a : TargetUlong} (h : pageOffset a = 0) : a.toNat % 1024 = 0 := by
  rw [← toNat_pageOffset, h]
  rfl

theorem WellPlaced.second_page {t : TbCode} (h : WellPlaced t) (h1 : t.pageAddr 1 ≠ -1) :
    1024 < (pageOffset t.pc).toNat + t.size ∧ (t.pageAddr 1).toNat % 1024 = 0 := by
  have hspan : 1024 < (pageOffset t.pc).toNat + t.size := by
    by_contra hle
    exact h1 (h.single (by omega))
  exact ⟨hspan, aligned_of_offset (h.second hspan)⟩

theorem tbHit_iff {b : Blocks} {e : PageLink} :
    TbHit b start last e ↔ start.toNat < (tbEnd (b e.1) e.2).toNat ∧ (tbStart (b e.1) e.2).toNat < last.toNat := by
  rw [TbHit, le_def, le_def]
  omega

/-- The test for the first page of a block. -/
theorem tbHit_first {b : Blocks} (h : WellPlaced (b t).toTbCode)
    (hon : pageIndex ((b t).pageAddr 0) = pageIndex start) :
    TbHit b start last (t, 0) ↔ start.toNat < ((b t).pageAddr 0).toNat + (pageOffset (b t).pc).toNat + (b t).size ∧
      ((b t).pageAddr 0).toNat + (pageOffset (b t).pc).toNat < last.toNat ∧ ¬ (b t).ReachesTop := by
  have hal := aligned_of_offset h.first
  have hoff := toNat_pageOffset (b t).pc
  have hsize := h.size_le
  have hlt := ((b t).pageAddr 0).isLt
  rw [pageIndex_eq, pageIndex_eq] at hon
  have hstart : (tbStart (b t) 0).toNat = ((b t).pageAddr 0).toNat + (pageOffset (b t).pc).toNat := by
    rw [tbStart, if_pos rfl, toNat_add]
    omega
  have hend : (tbEnd (b t) 0).toNat =
      (((b t).pageAddr 0).toNat + (pageOffset (b t).pc).toNat + (b t).size) % 2 ^ 32 := by
    rw [tbEnd, if_pos rfl, toNat_add, hstart, toNat_ofNat]
    omega
  rw [tbHit_iff, hstart, hend, TbCode.ReachesTop]
  omega

/-- The test for the second page of a block. -/
theorem tbHit_second {b : Blocks} (h : WellPlaced (b t).toTbCode) (h1 : (b t).pageAddr 1 ≠ -1) :
    TbHit b start last (t, 1) ↔
      start.toNat < ((b t).pageAddr 1).toNat + ((pageOffset (b t).pc).toNat + (b t).size - 1024) ∧
        ((b t).pageAddr 1).toNat < last.toNat := by
  obtain ⟨hspan, hal⟩ := h.second_page h1
  have hoff := toNat_pageOffset (b t).pc
  have hsize := h.size_le
  have hlt := ((b t).pageAddr 1).isLt
  have hrest : (pageOffset ((b t).pc + .ofNat 32 (b t).size)).toNat =
    (pageOffset (b t).pc).toNat + (b t).size - 1024 := by
    rw [toNat_pageOffset, toNat_add, toNat_ofNat]
    omega
  have hend : (tbEnd (b t) 1).toNat = ((b t).pageAddr 1).toNat + ((pageOffset (b t).pc).toNat + (b t).size - 1024) := by
    rw [tbEnd, if_neg one_ne_zero, tbStart, if_neg one_ne_zero, toNat_add, hrest]
    omega
  rw [tbHit_iff, hend, tbStart, if_neg one_ne_zero]

/-- **The octets in the range.** A block meets the range with its first or with its second page. -/
theorem meets_iff {b : Blocks} (h : WellPlaced (b t).toTbCode) (hlt : start < last) (hpage : InPage start last) :
    (b t).Meets start last ↔
      (OnPage (b t) 0 (pageIndex start) ∧ (TbHit b start last (t, 0) ∨
        (b t).ReachesTop ∧ (tbStart (b t) 0).toNat < last.toNat)) ∨
      (OnPage (b t) 1 (pageIndex start) ∧ TbHit b start last (t, 1)) := by
  have hal := aligned_of_offset h.first
  have hoff := toNat_pageOffset (b t).pc
  have hsize := h.size_le
  have hlt' : start.toNat < last.toNat := lt_def.1 hlt
  have hsame : (last.toNat - 1) / 1024 = start.toNat / 1024 := by
    have hone : (last - 1).toNat = last.toNat - 1 := by
      rw [toNat_sub]
      have := last.isLt
      change (2 ^ 32 - 1 + last.toNat) % 2 ^ 32 = _
      omega
    have := hpage hlt
    rwa [pageIndex_eq, pageIndex_eq, hone] at this
  have hstart0 : (tbStart (b t) 0).toNat = ((b t).pageAddr 0).toNat + (pageOffset (b t).pc).toNat := by
    have := ((b t).pageAddr 0).isLt
    rw [tbStart, if_pos rfl, toNat_add]
    omega
  constructor
  · rintro ⟨k, hk, hge, hlt⟩
    by_cases hfirst : (pageOffset (b t).pc).toNat + k < 1024
    · rw [TbCode.octetAddr, if_pos hfirst] at hge hlt
      have hon : pageIndex ((b t).pageAddr 0) = pageIndex start := by
        rw [pageIndex_eq, pageIndex_eq]
        omega
      refine .inl ⟨⟨fun he => ?_, hon⟩, ?_⟩
      · rw [he] at hal
        revert hal
        decide
      · rw [tbHit_first h hon, hstart0]
        by_cases htop : (b t).ReachesTop
        · exact .inr ⟨htop, by omega⟩
        · exact .inl ⟨by omega, by omega, htop⟩
    · rw [TbCode.octetAddr, if_neg hfirst] at hge hlt
      have h1 : (b t).pageAddr 1 ≠ -1 := by
        intro he
        have hsecond := h.second (by omega)
        rw [he] at hsecond
        revert hsecond
        decide
      have hal1 := (h.second_page h1).2
      refine .inr ⟨⟨h1, ?_⟩, (tbHit_second h h1).2 ⟨by omega, by omega⟩⟩
      rw [pageIndex_eq, pageIndex_eq]
      omega
  · rintro (⟨hon, hhit⟩ | ⟨hon, hhit⟩)
    · rw [tbHit_first h hon.2, hstart0] at hhit
      have hindex := hon.2
      rw [pageIndex_eq, pageIndex_eq] at hindex
      have hreach : start.toNat < ((b t).pageAddr 0).toNat + (pageOffset (b t).pc).toNat + (b t).size := by
        rcases hhit with hhit | ⟨htop, -⟩
        · exact hhit.1
        · have := start.isLt
          rw [TbCode.ReachesTop] at htop
          omega
      have hbelow : ((b t).pageAddr 0).toNat + (pageOffset (b t).pc).toNat < last.toNat := by
        rcases hhit with hhit | ⟨-, hhit⟩
        · exact hhit.2.1
        · exact hhit
      refine ⟨start.toNat - (((b t).pageAddr 0).toNat + (pageOffset (b t).pc).toNat), ?_, ?_⟩
      · have := h.size_pos
        omega
      · rw [TbCode.octetAddr, if_pos (by omega)]
        omega
    · obtain ⟨hge, hlt⟩ := (tbHit_second h hon.1).1 hhit
      have hspan := (h.second_page hon.1).1
      refine ⟨1024 - (pageOffset (b t).pc).toNat + (start.toNat - ((b t).pageAddr 1).toNat), ?_, ?_⟩
      · omega
      · rw [TbCode.octetAddr, if_neg (by omega)]
        omega

end Emulator.Exec
